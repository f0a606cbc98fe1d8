import ReliableBT.Torrent.Steps

/-!
# Invariants of whole runs

`Keeps.run`: what `Keeps E C I` says of steps holds of every run that starts with a fresh torrent
and whose steps all meet `C`. `Ground` needs no condition on the steps (`ground_keeps`).

Many invariants are about data rather than peers: writes in flight, storage, hashers. `DataOnly`
asks of such an invariant only what concerns the tables it reads; availability, requests, priorities
and the piece request order are dealt with here, for all of them.
-/

namespace ReliableBT

open Torrent List Option Nat Bitmap Function

variable {E : Panic → Prop} {C : Torrent → Event → Prop} {J : Torrent → Prop} {t : Torrent}
  {I : Set ℕ → Option ℕ → Torrent → Prop} {S : Set ℕ} {d : Option ℕ}

/-- The chunk that an event delivers: index, begin and data. -/
def Event.delivers : Event → Option (Nat × Nat × List UInt8)
  | .message _ msg _ _ =>
    if msg.type = .piece then some (msg.index.toNat, msg.begin.toNat, msg.piece) else none
  | .webseedResult _ r (some bytes) _ => some (r.index, r.begin, bytes)
  | _ => none

/-- The info that an event brings. -/
def Event.brings : Event → Option Info
  | .setInfo info => some info
  | _ => none

/-- The info that an event brings is regular. -/
def BringsRegular (t : Torrent) (e : Event) : Prop :=
  ∀ info ∈ e.brings, info.Regular t.cfg.chunkSize

instance (t : Torrent) (e : Event) : Decidable (BringsRegular t e) :=
  inferInstanceAs (Decidable (∀ info ∈ e.brings, _))

/-- `receiveChunk` accepts the chunk and does not have it yet: it is written, if it is expected. -/
def Torrent.wouldWrite (t : Torrent) (c : Nat × Nat × List UInt8) : Prop :=
  t.checkValidReceiveChunk ⟨c.1, c.2.1, u32 c.2.2.length⟩ = none ∧ t.haveChunk c.1 c.2.1 = false

instance (t : Torrent) (c : Nat × Nat × List UInt8) : Decidable (t.wouldWrite c) :=
  inferInstanceAs (Decidable (_ ∧ _))

theorem valid_info {r : Request} (h : t.checkValidReceiveChunk r = none) :
    ∃ info, t.info = some info ∧ r.index < info.numPieces ∧ r.begin < info.pieceLen r.index := by
  cases hinfo : t.info with
  | none => simp [checkValidReceiveChunk, haveInfo, hinfo] at h
  | some info =>
    refine ⟨info, rfl, ?_⟩
    simp only [checkValidReceiveChunk, haveInfo, numPieces, pieceLength, hinfo, isSome_some,
      Bool.not_true, Bool.false_eq_true, if_false, map_some, getD_some] at h
    split_ifs at h with hindex hbegin
    exact ⟨Nat.lt_of_not_le hindex, Nat.lt_of_not_le hbegin⟩

/-- `t'` is `t` but for requests and what only steers them. -/
def Steered (t t' : Torrent) : Prop :=
  t' = { t with
    ctl := t'.ctl, buf := t'.buf, up := t'.up, pendingPieces := t'.pendingPieces,
    reqs := t'.reqs }

theorem steered_reqsFree (t : Torrent) : ReqsFree (fun _ => True) (Steered t) where
  ctl h c _ := congrArg (fun s : Torrent => ({ s with ctl := c } : Torrent)) h
  buf h b _ := congrArg (fun s : Torrent => ({ s with buf := b } : Torrent)) h
  up h u _ := congrArg (fun s : Torrent => ({ s with up := u } : Torrent)) h
  reqs h r := congrArg (fun s : Torrent => ({ s with reqs := r } : Torrent)) h

/-! ## Chunks before and after their write -/

/-- The chunk of `w` is marked dirty and its write begins. -/
def Torrent.writeBegun (t : Torrent) (w : ChunkWrite) : Torrent :=
  { t with
    writes.pendingWrites :=
      update t.writes.pendingWrites w.index (t.writes.pendingWrites w.index + 1)
    writes.inFlight := t.writes.inFlight ++ [w]
    dirtyChunks :=
      t.dirtyChunks.add (u32 (t.pieceRequestIndexOffset w.index + w.begin / t.cfg.chunkSize)) }

/-- The write at `k`, of piece `i`, is over. -/
def Torrent.writeReturned (t : Torrent) (k i : Nat) : Torrent :=
  { t with
    writes.pendingWrites := update t.writes.pendingWrites i (t.writes.pendingWrites i - 1)
    writes.inFlight := t.writes.inFlight.eraseIdx k }

/-- The chunk `r` is pended. -/
def Torrent.chunkPended (t : Torrent) (r : Nat) : Torrent :=
  { t with
    dirtyChunks := t.dirtyChunks.remove r
    writes.covered := update t.writes.covered r fun _ => false }

theorem pendRequest_index (info : Info) (cs : Nat) {r : Nat} (hr : r < 2 ^ 32) :
    u32 (info.pieceRequestIndexOffset cs (info.pieceIndexOfRequestIndex cs r) +
      r % info.chunksPerRegularPiece cs) = r := by
  have hdiv : r / info.chunksPerRegularPiece cs < 2 ^ 32 :=
    lt_of_le_of_lt (div_le_self _ _) hr
  have hmul : r / info.chunksPerRegularPiece cs * info.chunksPerRegularPiece cs < 2 ^ 32 :=
    lt_of_le_of_lt (div_mul_le_self _ _) hr
  rw [Info.pieceRequestIndexOffset, Info.pieceIndexOfRequestIndex, u32_of_lt hdiv, u32_of_lt hmul,
    div_add_mod', u32_of_lt hr]

variable {w : ChunkWrite} {k : Nat} {info : Info} {i p : Nat} {cfg : Config} {storage : Storage}
  {events : List Event}

theorem PeersFree.beginWrite (h : PeersFree E J) (ht : J (t.writeBegun w)) (now : Nat) :
    Ends E J (t.beginWrite w now) := by
  -- the invariant, seen from before the write is listed
  have h' : PeersFree E fun t' =>
      J { t' with writes.inFlight := t'.writes.inFlight ++ [w] } :=
    { ctl := fun ht' c hc => h.ctl ht' c ⟨hc.need, hc.allowedFast⟩, buf := h.buf, up := h.up,
      panic := h.panic, reqs := h.reqs, availPanic := h.availPanic, relative := h.relative,
      closed := h.closed, pieces := h.pieces, sentHaveAll := h.sentHaveAll, withAll := h.withAll,
      order := h.order, conns := h.conns }
  refine (h'.updatePieceRequestOrder (h.usefulChunk ht w.peer now) w.index).bind fun t₁ ht₁ => ?_
  exact (h'.unbooks.cancelOther ht₁ w.peer w.req).bind fun t₂ ht₂ => ht₂

theorem Plain.chunkStored (h : Plain E (fun _ => True) J) (ht : J (t.cover w)) :
    Ends E J (t.chunkStored w) := by
  unfold Torrent.chunkStored
  dsimp only
  split_ifs
  · exact h.queuePieceCheck trivial ht
  · exact ht

theorem PeersFree.chunkWritten (h : PeersFree E J) (ht : J t) {ok : Bool}
    (hcheck : ∀ w ∈ t.writes.inFlight, t.metaPieceLength w.index < w.begin + w.data.length →
      E .writeOverflowsPiece)
    (hpending : ∀ w ∈ t.writes.inFlight, t.writes.pendingWrites w.index = 0 → E .pendingWrites)
    (hstored : ∀ w, t.writes.inFlight[k]? = some w →
      Ends E J ((t.writeReturned k w.index).chunkStored w))
    (hfailed : ∀ w, t.writes.inFlight[k]? = some w → t.chunksPerRegularPiece ≠ 0 →
      t.pieceIndexOfRequestIndex w.req < t.numPieces →
      J ((t.writeReturned k w.index).chunkPended
        (u32 (t.pieceRequestIndexOffset (t.pieceIndexOfRequestIndex w.req) +
          w.req % t.chunksPerRegularPiece)))) : Ends E J (t.chunkWritten k ok) := by
  unfold Torrent.chunkWritten
  split
  · exact ht
  · rename_i w hk
    have hw : w ∈ t.writes.inFlight := mem_of_getElem? hk
    refine Ends.require (fun _ => ?_) fun hover => hcheck w hw (Nat.lt_of_not_le hover)
    have hdec : Ends E (fun t' => t' = t.writeReturned k w.index)
        (t.decrementPendingWrites k w.index) := by
      unfold decrementPendingWrites
      split_ifs with hzero
      · exact hpending w hw hzero
      · rfl
    refine hdec.bind fun t₁ ht₁ => ?_
    subst ht₁
    split_ifs
    · exact hstored w hk
    · have hpend : Ends E J ((t.writeReturned k w.index).pendRequest w.req) := by
        unfold pendRequest
        split_ifs with hcpp
        · exact h.panic _ (.inr (.inr rfl))
        · dsimp only
          split_ifs with hi
          · exact h.panic _ (.inr (.inr rfl))
          · exact h.updatePieceRequestOrder (hfailed w hk hcpp (Nat.lt_of_not_le hi)) _
      exact hpend.bind fun t₂ ht₂ => h.updateRequests ht₂ _ (.inl nofun)

theorem PeersLeave.gotInfo (h : PeersLeave E (I ∅ none)) (ha : AvailFree E (I ∅ none))
    (hq : Queue E (fun _ => True) I)
    (howner : ∀ {t : Torrent}, I ∅ none t → I ∅ none { t with reqs.owner := fun _ => none })
    (ht : I ∅ none t) (hset : Ends E (I ∅ none) (t.setInfo info)) :
    Ends E (I ∅ none) (t.gotInfo info) := by
  unfold Torrent.gotInfo
  split_ifs
  · exact ht
  · refine hset.bind fun t₁ ht₁ => ?_
    refine (Ends.foldlM ht₁ fun _ ht' i _ => ha.onSetInfoPiece hq ht' i).bind fun t₂ ht₂ => ?_
    refine (hq.tryCreateMorePieceHashers (howner ht₂)).bind fun t₃ ht₃ => ?_
    refine Ends.foldlM ht₃ fun _ ht' p _ => h.onSetInfoPeer (fun ht'' q => ?_) ht' p
    exact ends_maybeDrop q ht'' fun _ _ => h.dropConnection ht'' q

theorem PeersFree.gotInfo (h : PeersFree E (I ∅ none)) (hq : Queue E (fun _ => True) I)
    (ht : I ∅ none t) (hset : Ends E (I ∅ none) (t.setInfo info)) :
    Ends E (I ∅ none) (t.gotInfo info) :=
  h.safe.leave.gotInfo h.toAvailFree hq (fun ht' => h.reqs ht' _) ht hset

/-! ## Invariants about data -/

/-- `J` does not look at priorities, at which peers there are and whether the torrent is closed. -/
structure Around (J : Torrent → Prop) : Prop where
  pending : ∀ {t : Torrent}, J t → ∀ b, J { t with pendingPieces := b } := by intros; assumption
  prio : ∀ {t : Torrent}, J t → ∀ p, J { t with prio := p } := by intros; assumption
  stopped : ∀ {t : Torrent}, J t → J { t with closed := true } := by intros; assumption
  addConn : ∀ {t : Torrent} {p fast transmission addr}, J t → p ∉ t.avail.peerIds →
    J { t.newPeer p (.conn fast transmission) addr 250 true with
      avail.conns := p :: t.avail.conns } := by intros; assumption
  addWebSeed : ∀ {t : Torrent} {p conforming addr}, J t → p ∉ t.avail.peerIds →
    J { t.newPeer p (.webseed conforming) addr 128 false with
      avail.webSeeds := p :: t.avail.webSeeds } := by intros; assumption
  reorder : ∀ {t : Torrent} {conns}, J t → conns.Perm t.avail.conns →
    J { t with avail.conns := conns } := by intros; assumption

theorem Around.setInfo_ends (h : Around J) (ha : AvailFree E J)
    (ht : J { t with info := some info }) : Ends E J (t.setInfo info) := by
  unfold setInfo
  split_ifs
  · exact ha.availPanic _ (.inr (.inr rfl))
  · exact h.prio (ha.relative ht _) _

/-- What an invariant about data withstands, so that every step meeting `C` keeps it. -/
structure DataOnly (E : Panic → Prop) (C : Torrent → Event → Prop) (J : Torrent → Prop) : Prop
    extends PeersFree E J, Around J where
  setInfo : ∀ {t : Torrent} {info}, J t → t.info = none → C t (.setInfo info) →
    J { t with info := some info }
  pendAll : ∀ {t i}, i < t.numPieces → J t → J (t.pendAllChunkSpecs i)
  complete : ∀ {t i}, i < t.numPieces → J t → ∀ c, J (t.setCompletion i c)
  flags : ∀ {t : Torrent}, J t → ∀ q b m n, J { t with
    hash.queued := q, hash.hashing := b, hash.marking := m, hash.activePieceHashes := n }
  spawn : ∀ {t : Torrent}, J t → ∀ i,
    J { t with hash.hashers := t.hash.hashers ++ [⟨i, .waiting⟩] } := by intros; assumption
  write : ∀ {t t' : Torrent} {w : ChunkWrite} {e : Event} (now : Nat), J t' → Steered t t' →
    t.wouldWrite (w.index, w.begin, w.data) → w.written = 0 →
    w.req = t.requestIndexFromRequest ⟨w.index, w.begin, u32 w.data.length⟩ →
    C t e → e.delivers = some (w.index, w.begin, w.data) → Ends E J (t'.beginWrite w now)
  fill : ∀ {t p input pops pex actions}, J t → p ∈ t.avail.conns →
    C t (.fill p input pops pex actions) →
    Ends E J (t.maybeUpdateActualRequestState p input pops)
  updateWebseed : ∀ {t p input pops}, J t → t.isConn p = false →
    Ends E J (t.maybeUpdateActualRequestState p input pops)
  writeChunk : ∀ {t k stop}, J t → Ends E J (t.writeChunk k stop)
  chunkWritten : ∀ {t k ok}, J t → Ends E J (t.chunkWritten k ok)
  hashPiece : ∀ {t k n}, J t → J (t.hashPiece k n)
  toMarking : ∀ {t : Torrent} {k i : Nat} {bytes : List UInt8}, J t →
    t.hash.hashers[k]? = some ⟨i, .reading bytes⟩ →
    J { t with hash.hashers := t.hash.hashers.set k ⟨i, .marking bytes false⟩ }
  markedComplete : ∀ {t k ok}, J t → J (t.markedComplete k ok)
  verified : ∀ {t : Torrent} {k i : Nat} {bytes : List UInt8}, J t →
    t.hash.hashers[k]? = some ⟨i, .marking bytes true⟩ → J (t.setVerified i bytes)
  unspawn : ∀ {t : Torrent}, J t → ∀ k,
    J { t with hash.hashers := t.hash.hashers.eraseIdx k }
  storageCompletion : ∀ {t : Torrent}, J t → ∀ c, J { t with storage.completion := c }

namespace DataOnly

theorem plain (h : DataOnly E C J) : Plain E (fun _ => True) J :=
  h.toPeersFree.plain h.pending h.pendAll h.complete h.flags h.spawn

/-! ## Chunks -/

theorem receiveChunk (h : DataOnly E C J) (ht : J t) {t₀ : Torrent} (h₀ : Steered t₀ t)
    {e : Event} (hC : C t₀ e) {index begin : Nat} {data : List UInt8}
    (he : e.delivers = some (index, begin, data)) (p now : Nat) :
    Ends E (fun x => J x.1) (t.receiveChunk p index begin data now) := by
  have hJ := h.toReqsFree.and (steered_reqsFree t₀)
  refine hJ.unbooks.receiveChunk (fun _ ht' => ht'.1) ⟨ht, h₀⟩ p index begin data now
    fun t' ht' hhave hvalid => ?_
  rw [h₀] at hvalid
  rw [ht'.2] at hhave
  refine h.write now ht'.1 ht'.2 ⟨hvalid, hhave⟩ rfl ?_ hC he
  rw [h₀]
  rfl

/-! ## All steps -/

theorem keeps (h : DataOnly E C J) : Keeps E C fun _ _ => J := by
  refine KeepsPieces.keeps { h.plain.toQueue with
    gotInfo := fun ht _ hinfo hC => ?_
    addPeerConn := fun ht hp => h.peerConnAdded (h.addConn ht hp)
    addWebSeed := fun ht hp => h.toPeersFree.toAvailFree.addWebSeed (h.addWebSeed ht hp)
    receiveChunk := fun ht _ htype hC =>
      h.receiveChunk ht rfl hC (by simp [Event.delivers, htype]) _ _
    fill := h.fill
    updateWebseed := fun ht _ hconn _ => h.updateWebseed ht hconn
    webseedResult := fun ht _ hC => h.unbooks.requestResultHandler (h.reqs ht _)
      fun _ hresult ht₁ => by
        subst hresult
        exact h.receiveChunk ht₁ rfl hC rfl _ _
    writeChunk := h.writeChunk
    chunkWritten := h.chunkWritten
    hashPiece := h.hashPiece
    hashed := fun ht _ => h.flags ht _ _ _ _
    toMarking := fun ht hk _ => h.flags (h.toMarking ht hk) _ _ _ _
    marking := fun ht _ _ => h.flags ht _ _ _ _
    markedComplete := h.markedComplete
    verified := h.verified
    done := fun ht _ => ht
    unspawn := fun ht => h.flags (h.unspawn ht _) _ _ _ _
    storageCompletion := h.storageCompletion
    prio := .ofFree h.plain.index (h.plain.update trivial) h.prio
    reorder := h.reorder
    closeTorrent := fun ht _ =>
      h.toPeersFree.toAvailFree.closeTorrent h.stopped h.safe.close ht } fun _ _ => h.safe
  exact h.toPeersFree.gotInfo h.plain.toQueue ht
    (h.toAround.setInfo_ends h.toAvailFree (h.setInfo ht hinfo hC))

end DataOnly

/-! ## The ground -/

theorem ground_setCompletion (hi : i < t.numPieces) (h : Ground d t) (c : Completion) :
    Ground d (t.setCompletion i c) :=
  { h with
    complete := fun j hj => by
      change j ∈ (if c.complete then _ else _) at hj
      split_ifs at hj
      · rcases mem_add.mp hj with rfl | hj
        · exact hi
        · exact h.complete j hj
      · exact h.complete j (mem_remove.mp hj).1 }

theorem ground_pendingFree (d : Option ℕ) : PendingFree (Ground d) :=
  ⟨(ground_peersFree d).toReqsFree.toAside, fun h _ => h⟩

theorem ground_upkeep : Upkeep (fun _ => True) (fun _ => True) fun _ d => Ground d where
  aside _ d := (ground_pendingFree d).toAside
  mono _ h := h
  order _ h := (ground_peersFree _).updatePieceRequestOrder h _
  update _ h reason := (ground_pendingFree _).updatePiecePriority trivial (fun _ => h)
    (fun _ => (ground_peersFree _).updatePieceRequestOrder h _) reason
  pendAll _ _ h := h
  complete _ hi h c := ground_setCompletion hi h c
  unchanged _ hi h := ground_setCompletion hi h _
  cancelRequest h r := (ground_peersFree _).unbooks.cancelRequest h r
  drop h _ _ := (ground_peersFree _).safe.dropConnection h _

theorem ground_queue : Queue (fun _ => True) (fun _ => True) fun _ d => Ground d where
  toTending := ground_upkeep.toTending
  updatePieceCompletion {S _ _ _} hi h := ground_upkeep.updatePieceCompletion (S := S) hi h
  queue _ hi h := { h with
    queued := fun j hj => by
      rcases mem_add.mp hj with rfl | hj
      · exact hi
      · exact h.queued j hj }
  begin h _ := { h.toHashersRight.begin _, h with
    queued := fun j hj => h.queued j (mem_remove.mp hj).1 }
  spawn {_ _ t₀ t i} h₀ hidle hhash h := by
    have hright := h₀.toHashersRight.spawn hidle
    exact { h with
      marked := fun k j => by
        unfold spawnHasher
        dsimp only
        rw [hhash]
        exact hright.marked k j
      distinct := fun k k' j => by
        unfold spawnHasher
        dsimp only
        rw [hhash]
        exact hright.distinct k k' j }

theorem busy_set {hashers : List Hasher} {phase phase' : HashPhase}
    (hk : hashers[k]? = some ⟨i, phase⟩)
    (hphase : (∃ bytes marked, phase' = .marking bytes marked) ∨ Busy hashers k i) :
    ∀ k' j, Busy (hashers.set k ⟨i, phase'⟩) k' j → Busy hashers k' j := by
  intro k' j hk'
  by_cases hkk : k = k'
  · subst hkk
    unfold Busy at hk'
    rw [List.getElem?_set_self (List.getElem?_eq_some_iff.mp hk).1] at hk'
    rcases hphase with ⟨bytes, marked, rfl⟩ | hbusy
    · rcases hk' with hk' | ⟨_, hk'⟩ <;> cases hk'
    · rcases hk' with hk' | ⟨_, hk'⟩ <;> cases hk' <;> exact hbusy
  · unfold Busy at hk' ⊢
    rw [getElem?_set_ne hkk] at hk'
    exact hk'

theorem ground_hashPiece (h : Ground d t) (k n : Nat) : Ground d (t.hashPiece k n) := by
  unfold hashPiece
  split
  · rename_i i hk
    split_ifs
    · exact { h.toHashersRight.mono (busy_set hk (.inr (.inl hk))), h with }
    · exact h
  · rename_i i bytes hk
    exact { h.toHashersRight.mono (busy_set hk (.inr (.inr ⟨bytes, hk⟩))), h with }
  · exact h

theorem ground_markedComplete (h : Ground d t) (k : Nat) (ok : Bool) :
    Ground d (t.markedComplete k ok) := by
  unfold markedComplete
  split
  · rename_i i bytes hk
    have hright := h.toHashersRight.mono (busy_set hk (.inl ⟨bytes, true, rfl⟩))
    unfold markComplete
    split_ifs
    · exact { hright, h with }
    · exact { hright, h with }
  · exact h

theorem ground_addConn (h : Ground none t) (hp : p ∉ t.avail.peerIds) (fast transmission : Bool)
    (addr : Option (Nat × Nat)) :
    Ground none { t.newPeer p (.conn fast transmission) addr 250 true with
      avail.conns := p :: t.avail.conns } :=
  { h.toRosterOf.addConn hp (fun _ => newPeer_isConn t p (.conn fast transmission) addr 250 true)
      (by simp [isConn, newPeer]), h with
    gone := fun q hq hnot => by
      have hqp : q ≠ p := fun heq => hnot (heq ▸ mem_cons_self)
      have hmem : q ∉ t.avail.conns ++ t.avail.webSeeds :=
        fun hmem => hnot (mem_cons_of_mem p hmem)
      exact (update_of_ne hqp _ _).trans (h.gone q ((mem_cons.mp hq).resolve_left hqp) hmem)
    asked := fun q r hr => h.asked q r (mem_of_mem_update_nil hr) }

theorem ground_addWebSeed (h : Ground none t) (hp : p ∉ t.avail.peerIds) (conforming : Bool)
    (addr : Option (Nat × Nat)) :
    Ground none { t.newPeer p (.webseed conforming) addr 128 false with
      avail.webSeeds := p :: t.avail.webSeeds } :=
  { h.toRosterOf.addWebSeed hp (fun _ => newPeer_isConn t p (.webseed conforming) addr 128 false)
      (by simp [isConn, newPeer]), h with
    gone := fun q hq hnot => by
      have hqp : q ≠ p := fun heq =>
        hnot (heq ▸ mem_append_right _ mem_cons_self)
      have hmem : q ∉ t.avail.conns ++ t.avail.webSeeds := fun hmem =>
        hnot (perm_middle.mem_iff.mpr (mem_cons_of_mem p hmem))
      exact (update_of_ne hqp _ _).trans (h.gone q ((mem_cons.mp hq).resolve_left hqp) hmem)
    asked := fun q r hr => h.asked q r (mem_of_mem_update_nil hr) }

theorem ground_writesFree : WritesFree (fun _ => True) (Ground none) where
  toAside := (ground_pendingFree none).toAside
  entry h _ := (ground_peersFree none).updatePieceRequestOrder h _

theorem ground_keeps : Keeps (fun _ => True) (fun _ _ => True) fun _ d => Ground d := by
  have hp := ground_peersFree none
  have hwrites := ground_writesFree.keepsWrites (C := fun _ _ => True) hp.toReqsFree
    (fun _ _ => trivial) fun h i => ground_queue.queuePieceCheck (S := ∅) (i := i) trivial h
  refine KeepsPieces.keeps { ground_queue, hwrites with
    gotInfo := fun {t info} h _ hinfo _ => hp.gotInfo (I := fun _ d => Ground d) ground_queue h ?_
    addPeerConn := fun h hnew => hp.peerConnAdded (ground_addConn h hnew _ _ _)
    addWebSeed := fun h hnew => hp.toAvailFree.addWebSeed (ground_addWebSeed h hnew _ _)
    hashPiece := fun h => ground_hashPiece h _ _
    hashed := fun h hk => { h.toHashersRight.hashed (.inr ⟨_, hk⟩), h with }
    toMarking := fun h hk _ => { h.toHashersRight.toMarking (.inr ⟨_, hk⟩) _ _, h with }
    marking := fun h _ _ => h
    markedComplete := fun h => ground_markedComplete h _ _
    verified := fun {_ _ t _ i bytes} h _ => ?_
    done := fun h k => { h.toHashersRight.done k, h with }
    unspawn := fun h => { h.toHashersRight.unspawn, h with }
    storageCompletion := fun h _ => h
    prio := .ofFree (fun _ _ => trivial) (fun h => ground_queue.update (S := ∅) trivial h)
      fun h _ => h
    reorder := fun h hperm => { h.toRosterOf.reorder hperm, h with
      gone := fun q hq hnot =>
        h.gone q hq fun hmem => hnot ((hperm.append_right _).mem_iff.mpr hmem) }
    closeTorrent := fun h _ => hp.toAvailFree.closeTorrent (fun h' => h') hp.safe.close h }
    fun _ d => (ground_peersFree d).safe
  · unfold setInfo
    split_ifs
    · trivial
    · obtain ⟨hcomplete, hqueued⟩ := h.no_pieces hinfo
      exact { h with
        complete := fun i hi => absurd hi (hcomplete i)
        queued := fun i hi => absurd hi (hqueued i)
        asked := fun p r hr => absurd hr (h.no_requests hinfo p r) }
  · unfold setVerified
    split_ifs
    · exact h
    · exact h

/-! ## Runs -/

theorem ground_init (cfg : Config) (storage : Storage) : Ground none (init cfg storage) := by
  refine ⟨⟨?_, ?_, ?_, ?_⟩, ⟨?_, ?_⟩, ?_, ?_, ?_, ?_⟩ <;> simp [init, Busy]

/-- **Runs**: an invariant of the steps that meet `C` is one of the runs that do. -/
theorem KeepsSteps.run (h : KeepsSteps E C I) (hinit : I ∅ none (init cfg storage))
    (hC : Meets Torrent.step C (init cfg storage) events) :
    Ends E (fun t => I ∅ none t ∧ Ground none t)
      (ReliableBT.run Torrent.step (init cfg storage) events) := by
  refine hC.ends (fun t e ht hCe => ?_) ⟨hinit, ground_init cfg storage⟩
  exact (h.step ht.2 ht.1 hCe).and (ground_keeps.step ht.2 ht.2 trivial)

theorem Keeps.run (h : Keeps E C I) (hinit : I ∅ none (init cfg storage))
    (hC : Meets Torrent.step C (init cfg storage) events) :
    Ends E (fun t => I ∅ none t ∧ Ground none t)
      (ReliableBT.run Torrent.step (init cfg storage) events) :=
  h.keepsSteps.run hinit hC

/-- **Peers, pieces and hashers.** Whatever happens to a torrent, in any order: a piece that a
hasher waits for or reads is marked as hashing, and no second hasher does; no peer is listed twice,
and one that is not listed any more is closed; what is complete or queued is a piece of the
torrent. -/
theorem one_hasher_for_piece (cfg : Config) (storage : Storage) (events : List Event) :
    Gives (fun t => (∀ k i, Busy t.hash.hashers k i → t.hash.hashing i = true ∧
          ∀ k', Busy t.hash.hashers k' i → k' = k) ∧
        (t.avail.conns ++ t.avail.webSeeds).Nodup ∧
        (∀ p ∈ t.avail.peerIds, p ∉ t.avail.conns ++ t.avail.webSeeds → t.avail.closed p = true) ∧
        ∀ i, i ∈ t.comp.completed ∨ i ∈ t.hash.queued → i < t.numPieces)
      (ReliableBT.run step (init cfg storage) events) := by
  have hrun := ground_keeps.run (ground_init cfg storage) (.of_forall (fun _ _ => trivial) events)
  refine hrun.imp fun t h => ⟨fun k i hk => ⟨?_, fun k' hk' => ?_⟩, h.2.nodup, h.2.gone, ?_⟩
  · exact h.2.marked k i hk (some_ne_none k).symm
  · exact h.2.distinct k' k i hk' hk (some_ne_none k').symm (some_ne_none k).symm
  · rintro i (hi | hi)
    · exact h.2.complete i hi
    · exact h.2.queued i hi

/-! ## A torrent to run -/

/-- The default configuration but for chunks of four bytes; every piece passes. -/
def smallConfig : Config where
  hasStorage := true
  chunkSize := 4
  chunkSize_pos := by decide
  chunkSize_lt := by decide
  dropMutuallyCompletePeers := true
  noUpload := false
  seed := false
  disableAggressiveUpload := false
  initialPieceCheckDisabled := false
  maxUnverifiedBytes := 64 <<< 20
  maximumPeerRequestChunkLength := none
  infoHash := 0
  hashOk := fun _ _ => true

/-- A storage that knows that it has nothing. -/
def emptyStorage : Storage := { completion := fun _ => ⟨false, true⟩ }

/-- One piece of two chunks of four bytes. -/
def smallInfo : Info where
  pieceLength := 8
  fileLengths := [8]
  numPieces := 1
  files_ne := by decide
  valid := by decide

/-- Chunks of one byte, and no limit on unverified bytes. -/
def byteConfig : Config := { smallConfig with
  chunkSize := 1, chunkSize_pos := by decide, chunkSize_lt := by decide, maxUnverifiedBytes := 0 }

/-- Two pieces of `2 ^ 31` bytes, and one of one byte. -/
def wrappingInfo : Info where
  pieceLength := 2 ^ 31
  fileLengths := [2 ^ 32 + 1]
  numPieces := 3
  files_ne := by decide
  valid := by decide

/-- A message about pieces from connection 1. -/
def pieceMessage (type : Wire.MessageType) (index : UInt32) : Event :=
  .message 1 { type := type, index := index } (.other false) 0

/-- A connection with everything is asked for the first of two chunks and sends `data` at
`begin`. -/
def answer (begin : UInt32) (data : List UInt8) : List Event :=
  [.setInfo smallInfo, .addConn 1 true false none,
    .message 1 { type := .haveAll } (.other false) 0, .downloadPieces 0 1,
    .message 1 { type := .unchoke } (.other false) 0, .fill 1 {} [] 0 [],
    .message 1 { type := .piece, begin := begin, piece := data } (.other false) 0,
    .writeChunk 0 data.length]

end ReliableBT
