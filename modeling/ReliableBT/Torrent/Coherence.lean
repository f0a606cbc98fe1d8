import ReliableBT.Torrent.Order

/-!
# The piece request order is coherent

While a torrent with storage is open and its info is known, the client's piece request order has an
entry for each of its pieces, and the entry is what `requestStrategyPieceOrderState` computes.
Whatever changes a priority, a reader, a completion, a dirty chunk or the availability of one piece
updates the entries it affects; `addConnWithAllPieces` and `deleteConnWithAllPieces` change the
availability of every piece and update none.

`Coherent S` is the invariant, up to the stale pieces `S`. It says of every other piece that its
entry is `UpToDate`: priority and flag are right, and the availability is right if
`connsWithAllPieces` has not changed since the info is known.

* `order_coherent`: the entries are right in every run that meets `KeepsOrder`, if no step changes
  `connsWithAllPieces`.
* `order_stale`: a run with such a step; and a file whose priority reaches no piece.
-/

open Function Nat List Option Set

namespace ReliableBT

open Torrent

variable {t t' : Torrent} {info : Info} {S S' : Set ℕ} {i j : Nat}

/-- The entry of the piece has the right priority and flag, and the right availability if no
connection has come to `connsWithAllPieces` or gone from it since the info is known. -/
def UpToDate (t : Torrent) (i : Nat) : Prop :=
  ∃ a, t.order i = some ⟨t.purePriority i, t.piecePartiallyDownloaded i, a⟩ ∧
    (t.avail.moves = 0 → a = t.availability i)

theorem UpToDate.congr (h : UpToDate t j) (horder : t'.order j = t.order j)
    (hprio : t'.purePriority j = t.purePriority j)
    (hpart : t'.piecePartiallyDownloaded j = t.piecePartiallyDownloaded j)
    (havail : t'.avail.moves = 0 → t.avail.moves = 0 ∧ t'.availability j = t.availability j) :
    UpToDate t' j := by
  obtain ⟨a, hentry, ha⟩ := h
  refine ⟨a, ?_, fun hmoves => ?_⟩
  · rw [horder, hprio, hpart]
    exact hentry
  · obtain ⟨hmoves₀, hsame⟩ := havail hmoves
    rw [hsame]
    exact ha hmoves₀

/-- The entries of the pieces that are not stale are up to date, while the torrent is open. -/
def Coherent (S : Set ℕ) (t : Torrent) : Prop :=
  t.closed = false → ReadersRight t.prio ∧
    ∀ info, t.info = some info → info.Regular t.cfg.chunkSize ∧
      (t.cfg.hasStorage = true → ∀ i < info.numPieces, i ∉ S → UpToDate t i)

/-- Every info is regular, and no file of a torrent without piece length is given a priority. -/
def KeepsOrder (t : Torrent) (e : Event) : Prop :=
  (∀ info ∈ e.brings, info.Regular t.cfg.chunkSize) ∧
  match e with
  | .setFilePriority _ _ => ∀ info ∈ t.info, info.pieceLength ≠ 0
  | _ => True

instance (t : Torrent) (e : Event) : Decidable (KeepsOrder t e) := by
  unfold KeepsOrder
  split <;> infer_instance

namespace Coherent

/-! ## One change at a time -/

/-- A change that leaves alone what the entries of the pieces outside `S'` are made of. -/
theorem change (h : Coherent S t) (hsub : S ⊆ S') (hclosed : t'.closed = t.closed)
    (hcfg : t'.cfg = t.cfg) (hinfo : t'.info = t.info)
    (hreaders : ReadersRight t.prio → ReadersRight t'.prio)
    (hkeep : ∀ info, t.info = some info → info.Regular t.cfg.chunkSize →
      ∀ j < info.numPieces, j ∉ S' → UpToDate t j → UpToDate t' j) : Coherent S' t' := by
  intro hopen
  obtain ⟨hright, hentries⟩ := h (hclosed ▸ hopen)
  refine ⟨hreaders hright, fun info hinfo' => ?_⟩
  rw [hinfo] at hinfo'
  obtain ⟨hreg, hup⟩ := hentries info hinfo'
  rw [hcfg]
  refine ⟨hreg, fun hstorage j hj hfresh => ?_⟩
  exact hkeep info hinfo' hreg j hj hfresh (hup hstorage j hj fun hmem => hfresh (hsub hmem))

theorem mono (h : Coherent S t) (hsub : S ⊆ S') : Coherent S' t :=
  h.change hsub rfl rfl rfl id fun _ _ _ _ _ _ hup => hup

theorem of_closed (h : t.closed = true) : Coherent S t := fun hopen => by
  rw [h] at hopen
  cases hopen

theorem entry (h : Coherent (insert i S) t) : Coherent S { t with
    order := update t.order i (some (t.requestStrategyPieceOrderState i)) } := by
  intro hopen
  obtain ⟨hright, hentries⟩ := h hopen
  refine ⟨hright, fun info hinfo => ⟨(hentries info hinfo).1, fun hstorage j hj hfresh => ?_⟩⟩
  by_cases hji : j = i
  · subst hji
    exact ⟨t.availability j, update_self _ _ _, fun _ => rfl⟩
  · have hup := (hentries info hinfo).2 hstorage j hj fun hmem =>
      hmem.elim hji hfresh
    exact hup.congr (update_of_ne hji _ _) rfl rfl fun hmoves => ⟨hmoves, rfl⟩

theorem of_not_storageOpen (h : Coherent S t) (hs : t.storageOpen = false) : Coherent S' t := by
  intro hopen
  obtain ⟨hright, hentries⟩ := h hopen
  refine ⟨hright, fun info hinfo => ⟨(hentries info hinfo).1, fun hstorage => ?_⟩⟩
  simp [storageOpen, haveInfo, hinfo, hstorage] at hs

theorem updatePieceRequestOrder (h : Coherent (insert i S) t) :
    Gives (Coherent S) (t.updatePieceRequestOrder i) := by
  unfold Torrent.updatePieceRequestOrder
  split_ifs with hs
  · exact h.of_not_storageOpen (by simpa using hs)
  · trivial
  · trivial
  · exact h.entry

theorem addRequestOrderPiece (h : Coherent (insert i S) t) :
    Gives (Coherent S) (t.addRequestOrderPiece i) := by
  unfold Torrent.addRequestOrderPiece
  split_ifs with hs
  · exact h.of_not_storageOpen (by simpa using hs)
  · trivial
  · exact h.entry

section

variable (h : Coherent S t)
include h

theorem relative (i n : Nat) : Coherent (insert i S) { t with
    avail.relative := update t.avail.relative i n } := by
  refine h.change (subset_insert i S) rfl rfl rfl id fun _ _ _ j _ hj hup => ?_
  refine hup.congr rfl rfl rfl fun hmoves => ⟨hmoves, ?_⟩
  have hne : j ≠ i := fun heq => hj (.inl heq)
  unfold availability
  dsimp only
  rw [update_of_ne hne]

/-- `connsWithAllPieces` changes: if the info is known, the availabilities are out of date. -/
theorem withAll (l : List Nat) : Coherent S { t with
    avail.connsWithAllPieces := l
    avail.moves := if t.haveInfo then t.avail.moves + 1 else t.avail.moves } := by
  refine h.change (fun _ hi => hi) rfl rfl rfl id fun info hinfo _ j _ _ hup => ?_
  refine hup.congr rfl rfl rfl fun hmoves => ?_
  simp [haveInfo, hinfo] at hmoves

theorem setCompletion (i : Nat) (c : Completion) : Coherent (insert i S) (t.setCompletion i c) := by
  refine h.change (subset_insert i S) rfl rfl rfl id fun _ _ _ j _ hj hup => ?_
  have hne : j ≠ i := fun heq => hj (.inl heq)
  refine hup.congr rfl rfl (piecePartiallyDownloaded_congr rfl rfl ?_ rfl) fun hmoves =>
    ⟨hmoves, rfl⟩
  unfold Torrent.setCompletion
  dsimp only
  split_ifs
  · simp [hne]
  · simp [hne]

theorem dirty (i : Nat) (d : Bitmap) (w : Writes)
    (hsame : ∀ info, t.info = some info → info.Regular t.cfg.chunkSize →
      ∀ r, r / info.chunksPerRegularPiece t.cfg.chunkSize ≠ i ∨
        info.chunksPerRegularPiece t.cfg.chunkSize = 0 → (r ∈ d ↔ r ∈ t.dirtyChunks)) :
    Coherent (insert i S) { t with dirtyChunks := d, writes := w } := by
  refine h.change (subset_insert i S) rfl rfl rfl id fun info hinfo hreg j hlt hj hup => ?_
  have hne : j ≠ i := fun heq => hj (.inl heq)
  have hpart := piecePartiallyDownloaded_of_ne hinfo hreg hlt hne d w (hsame info hinfo hreg)
  exact hup.congr rfl rfl hpart fun hmoves => ⟨hmoves, rfl⟩

theorem pendAllChunkSpecs (hi : i < t.numPieces) :
    Coherent (insert i S) (t.pendAllChunkSpecs i) := by
  refine h.dirty i _ _ fun info hinfo hreg r hr => ?_
  have hlt : i < info.numPieces := by simpa [numPieces, hinfo] using hi
  rw [Bitmap.mem_removeRange]
  simp only [pieceRequestIndexOffset, hinfo, map_some, getD_some]
  rw [hreg.offset_eq (le_of_lt hlt), hreg.offset_eq hlt]
  refine and_iff_left ?_
  rintro ⟨hlo, hhi⟩
  rcases hr with hr | hr
  · exact hr (Nat.div_eq_of_lt_le hlo hhi)
  · rw [hr, mul_zero] at hhi
    exact not_lt_zero r hhi

theorem unpendChunkIndex {c : Nat}
    (hc : ∀ info, t.info = some info → info.Regular t.cfg.chunkSize →
      i < info.numPieces ∧ c < info.chunksPerRegularPiece t.cfg.chunkSize) :
    Gives (Coherent S) (t.unpendChunkIndex i c) := by
  refine Coherent.updatePieceRequestOrder ?_
  refine h.dirty i _ _ fun info hinfo hreg r hr => ?_
  obtain ⟨hi, hplace⟩ := hc info hinfo hreg
  rw [Bitmap.mem_add]
  simp only [pieceRequestIndexOffset, hinfo, map_some, getD_some]
  refine or_iff_right fun heq => ?_
  rcases hr with hr | hr
  · exact hr (heq ▸ hreg.piece_of_chunkIndex hi hplace)
  · omega

theorem pendRequest (r : Nat) : Gives (Coherent S) (t.pendRequest r) := by
  unfold Torrent.pendRequest
  split_ifs with hcpp
  · trivial
  · dsimp only
    split_ifs with hi
    · trivial
    · refine Coherent.updatePieceRequestOrder ?_
      refine h.dirty _ _ _ fun info hinfo hreg k hk => ?_
      simp only [chunksPerRegularPiece, hinfo, map_some, getD_some] at hcpp
      simp only [pieceIndexOfRequestIndex, chunksPerRegularPiece, numPieces, hinfo,
        map_some, getD_some, not_le] at hi
      simp only [pieceIndexOfRequestIndex, chunksPerRegularPiece, pieceRequestIndexOffset, hinfo,
        map_some, getD_some] at hk ⊢
      rw [Bitmap.mem_remove]
      refine and_iff_left fun heq => ?_
      have hplace := mod_lt r (pos_of_ne_zero hcpp)
      rcases hk with hk | hk
      · exact hk (heq ▸ hreg.piece_of_chunkIndex hi hplace)
      · exact hcpp hk

/-! ## Priorities -/

theorem piecePrio (i : Nat) (prio : PiecePriority) :
    Coherent (insert i S) { t with prio.piece := update t.prio.piece i prio } := by
  refine h.change (subset_insert i S) rfl rfl rfl id fun _ _ _ j _ hj hup => ?_
  have hne : j ≠ i := fun heq => hj (.inl heq)
  exact hup.congr rfl (purePriority_piece hne prio) rfl fun hmoves => ⟨hmoves, rfl⟩

end

theorem filePrio (h : Coherent ∅ t) (hinfo : t.info = some info) (hpl : info.pieceLength ≠ 0)
    (k : Nat) (prio : PiecePriority) :
    Coherent (Set.Ico (info.beginPieceIndex k) (info.endPieceIndex k))
      { t with prio.file := update t.prio.file k prio } := by
  refine h.change (empty_subset _) rfl rfl rfl id fun info' hinfo' _ j hlt hj hup => ?_
  cases hinfo.symm.trans hinfo'
  exact hup.congr rfl (purePriority_file hinfo hpl hlt hj prio) rfl fun hmoves => ⟨hmoves, rfl⟩

/-- A reader moves, and the pieces of the readers are computed anew: the pieces in its old and its
new range are stale. -/
theorem readers (h : Coherent ∅ t) (id : Nat) (new : Nat × Nat) :
    Coherent (Set.Ico (t.readerPieces id).1 (t.readerPieces id).2 ∪ Set.Ico new.1 new.2)
      { t with prio.readers := (id, new) ::
          t.prio.readers.filter fun r => decide (r.1 ≠ id) }.updateReaderPieces := by
  by_cases hclosed : t.closed = true
  · exact of_closed hclosed
  obtain ⟨hright, -⟩ := h (by simpa using hclosed)
  refine h.change (empty_subset _) rfl rfl rfl
    (fun _ => .updated t.prio (nodup_moved hright.2.2 id new)) fun info hinfo _ j _ hj hup => ?_
  exact hup.congr rfl (purePriority_readers hright hj) rfl fun hmoves => ⟨hmoves, rfl⟩

end Coherent

/-! ## Upkeep and peers -/

theorem coherent_reqsFree (S : Set ℕ) : ReqsFree (fun _ => True) (Coherent S) where
  ctl h _ _ := h
  buf h _ _ := h
  up h _ _ := h
  panic _ _ := trivial
  reqs h _ := h

theorem coherent_peersSafe (S : Set ℕ) : PeersSafe (fun _ => True) (Coherent S) where
  toReqsFree := coherent_reqsFree S
  availPanic _ _ := trivial
  incPieceAvailability {t} h i := by
    unfold incPieceAvailability
    split_ifs
    · exact h
    · trivial
    · exact (h.relative i _).updatePieceRequestOrder
  decPieceAvailability {t} h i := by
    unfold decPieceAvailability
    split_ifs
    · exact h
    · trivial
    · trivial
    · exact (h.relative i _).updatePieceRequestOrder
  addConnWithAllPieces {t} h p := by
    unfold addConnWithAllPieces
    by_cases hp : p ∈ t.avail.connsWithAllPieces
    · rw [if_pos hp]
      exact h
    · rw [if_neg hp]
      exact h.withAll _
  deleteConnWithAllPieces {t} h p := by
    unfold deleteConnWithAllPieces
    by_cases hp : p ∈ t.avail.connsWithAllPieces
    · rw [if_pos hp]
      exact h.withAll _
    · rw [if_neg hp]
      exact h
  closed h _ := h
  pieces h _ := h
  sentHaveAll h _ := h
  conns h _ := h

theorem coherent_upkeep : Upkeep (fun _ => True) (fun _ => True) fun S _ => Coherent S where
  aside S _ := (coherent_reqsFree S).toAside
  index _ _ := trivial
  mono hsub h := h.mono hsub
  order {_ _ _ i} _ h := (h.mono (subset_insert i _)).updatePieceRequestOrder
  update _ h reason := PendingFree.updatePiecePriority
    ⟨(coherent_reqsFree _).toAside, fun h' _ => h'⟩ trivial (fun hclosed => .of_closed hclosed)
    (fun _ => h.updatePieceRequestOrder) reason
  pendAll _ hi h := h.pendAllChunkSpecs hi
  complete _ _ h c := h.setCompletion _ c
  unchanged {_ _ t i} _ _ h := by
    obtain ⟨v, hv⟩ := setCompletion_self t i
    rw [hv]
    exact h
  cancelRequest h r := (coherent_reqsFree _).unbooks.cancelRequest h r
  drop h _ _ := (coherent_peersSafe _).dropConnection h _

theorem coherent_queue : Queue (fun _ => True) (fun _ => True) fun S _ => Coherent S where
  toTending := coherent_upkeep.toTending
  updatePieceCompletion {S d _ _} hi h :=
    coherent_upkeep.updatePieceCompletion (S := S) (d := d) hi h
  queued _ _ := trivial
  queue {_ _ _ i} _ _ h := h.mono (subset_insert i _)
  begin {_ _ _ i} h _ := h.mono (subset_insert i _)
  spawn _ _ _ h := h

theorem coherent_priorities : Priorities (fun _ => True) KeepsOrder Coherent where
  index _ _ := trivial
  mono hsub h := h.mono hsub
  update h reason := coherent_queue.update (d := none) trivial h reason
  piece h i prio := h.piecePrio i prio
  file h hinfo hC := h.filePrio hinfo (hC.2 _ hinfo) _ _
  readers h _ := h.readers _ _
  sameReaders h _ := h.change (fun _ hi => hi) rfl rfl rfl
    (fun hright => hright.moved rfl) fun _ _ _ _ _ _ hup => hup
  fewerReaders {t} h id := by
    refine h.change (empty_subset _) rfl rfl rfl (fun hright => ?_) ?_
    · exact .updated t.prio ((filter_sublist.map Prod.fst).nodup hright.2.2)
    · intro info hinfo _ j hlt hj
      refine absurd ⟨zero_le j, ?_⟩ hj
      simpa [numPieces, hinfo] using hlt

namespace Coherent

/-! ## Chunks -/

theorem beginWrite (h : Coherent ∅ t) {w : ChunkWrite} (now : Nat)
    (hw : ∀ info, t.info = some info → info.Regular t.cfg.chunkSize → w.index < info.numPieces ∧
      w.begin / t.cfg.chunkSize < info.chunksPerRegularPiece t.cfg.chunkSize) :
    Gives (Coherent ∅) (t.beginWrite w now) := by
  refine Ends.bind (Coherent.unpendChunkIndex (S := ∅) ?_ ?_) fun t₁ ht₁ => ?_
  · exact h
  · exact hw
  · exact ((coherent_reqsFree ∅).unbooks.cancelOther ht₁ _ _).bind fun t₂ ht₂ => ht₂

theorem receiveChunk (h : Coherent ∅ t) (p index begin : Nat) (data : List UInt8) (now : Nat) :
    Gives (fun x => Coherent ∅ x.1) (t.receiveChunk p index begin data now) := by
  have hJ := (coherent_reqsFree ∅).and (steered_reqsFree t)
  refine hJ.unbooks.receiveChunk (fun _ ht' => ht'.1) ⟨h, rfl⟩ p index begin data now
    fun t' ⟨ht', hsteered⟩ _ hvalid => ht'.beginWrite now fun info' hinfo' hreg => ?_
  obtain ⟨info, hinfo, hindex, hbegin⟩ := valid_info hvalid
  have hsame : t'.info = t.info := by rw [hsteered]
  rw [hsame, hinfo] at hinfo'
  cases hinfo'
  have hlt := lt_of_lt_of_le hbegin (Info.pieceLen_le_pieceLength _)
  exact ⟨hindex, hreg.chunk_lt t'.cfg.chunkSize_pos hlt⟩

theorem chunkWritten (h : Coherent ∅ t) (k : Nat) (ok : Bool) :
    Gives (Coherent ∅) (t.chunkWritten k ok) := by
  unfold Torrent.chunkWritten
  split
  · exact h
  · rename_i w hk
    refine Ends.require (fun _ => ?_) fun _ => trivial
    have hdec : Gives (Coherent ∅) (t.decrementPendingWrites k w.index) := by
      unfold decrementPendingWrites
      split_ifs
      · trivial
      · exact h
    refine hdec.bind fun t₁ ht₁ => ?_
    split_ifs
    · unfold chunkStored
      dsimp only
      have hcover : Coherent ∅ (t₁.cover w) := ht₁
      split_ifs
      · exact coherent_queue.queuePieceCheck (d := none) trivial hcover
      · exact hcover
    · exact (ht₁.pendRequest w.req).bind fun _ ht₂ =>
        (coherent_reqsFree ∅).updateRequests ht₂ _ (.inl nofun)

/-! ## The info -/

theorem onSetInfoPiece (h : Coherent (insert i S) t) : Gives (Coherent S) (t.onSetInfoPiece i) := by
  refine coherent_queue.onSetInfoPiece (d := none) trivial (fun _ => trivial) fun _ => ?_
  have hcount := h.relative i (t.selectivePieceAvailabilityFromPeers i)
  rw [insert_idem] at hcount
  exact hcount.addRequestOrderPiece

theorem gotInfo (h : Coherent ∅ t) (hreg : info.Regular t.cfg.chunkSize) :
    Gives (Coherent ∅) (t.gotInfo info) := by
  unfold Torrent.gotInfo
  split_ifs
  · exact h
  · have hset : Gives (fun t₁ => Coherent {i | 0 ≤ i ∧ i < t₁.numPieces} t₁) (t.setInfo info) := by
      unfold setInfo
      split_ifs
      · trivial
      · intro hopen
        obtain ⟨hright, -⟩ := h hopen
        refine ⟨hright, fun info' hinfo' => ?_⟩
        cases hinfo'
        exact ⟨hreg, fun _ i hi hfresh => absurd ⟨zero_le i, hi⟩ hfresh⟩
    refine hset.bind fun t₁ ht₁ => ?_
    -- the pieces from `k` on have no entry yet
    have hpieces : Gives (Coherent {i | t₁.numPieces ≤ i ∧ i < t₁.numPieces})
        ((range t₁.numPieces).foldlM Torrent.onSetInfoPiece t₁) := by
      refine Ends.foldlM_range (I := fun k => Coherent {i | k ≤ i ∧ i < t₁.numPieces}) ht₁
        fun k _ t' ht' => onSetInfoPiece (ht'.mono ?_)
      rintro i ⟨hki, hi⟩
      rcases eq_or_lt_of_le hki with rfl | hlt
      · exact mem_insert _ _
      · exact mem_insert_of_mem _ ⟨hlt, hi⟩
    refine hpieces.bind fun t₂ ht₂ => ?_
    have hempty : Coherent ∅ t₂ := ht₂.mono fun i hi => absurd hi.2 (not_lt.mpr hi.1)
    have howner : Coherent ∅ { t₂ with reqs.owner := fun _ => none } := hempty
    refine (coherent_queue.tryCreateMorePieceHashers (d := none) howner).bind fun t₃ ht₃ => ?_
    refine Ends.foldlM ht₃ fun _ ht' p _ =>
      (coherent_peersSafe ∅).toAvailSafe.onSetInfoPeer (fun h' q => ?_) ht' p
    exact ends_maybeDrop q h' fun _ _ => (coherent_peersSafe ∅).dropConnection h' q

/-! ## Peers -/

theorem addWebSeed (h : Coherent ∅ t) (p : Nat) (conforming : Bool)
    (addr : Option (Nat × Nat)) :
    Gives (Coherent ∅) (t.addWebSeed p conforming addr) := by
  have hnew : Coherent ∅ (t.newPeer p (.webseed conforming) addr 128 false) := h
  have hgot : Gives (Coherent ∅)
      (doIf t.haveInfo (t.newPeer p (.webseed conforming) addr 128 false)
        ((t.newPeer p (.webseed conforming) addr 128 false).webseedGotInfo p conforming)) :=
    Ends.doIf (fun _ => (coherent_peersSafe ∅).toAvailSafe.webseedGotInfo hnew p conforming)
      fun _ => hnew
  exact hgot.bind fun t₁ ht₁ => ht₁

end Coherent

theorem closed_peersFree : PeersFree (fun _ => True) fun t => t.closed = true where
  ctl h _ _ := h
  buf h _ _ := h
  up h _ _ := h
  panic _ _ := trivial
  reqs h _ := h
  availPanic _ _ := trivial
  relative h _ := h
  closed h _ := h
  pieces h _ := h
  sentHaveAll h _ := h
  withAll h _ _ := h
  order h _ := h
  conns h _ := h

theorem Coherent.closeTorrent (h : Coherent ∅ t) : Gives (Coherent ∅) t.closeTorrent := by
  unfold Torrent.closeTorrent
  split_ifs
  · exact h
  · have hstop : { t with closed := true }.closed = true := rfl
    refine (Ends.foldlM (I := fun t => t.closed = true) hstop fun _ ht' p _ =>
      closed_peersFree.safe.close ht' p).bind fun t₁ ht₁ => ?_
    have hdel := closed_peersFree.deletePieceRequestOrder ht₁
    exact (closed_peersFree.assertAllPiecesRelativeAvailabilityZero hdel).imp
      fun _ ht' => .of_closed ht'

/-! ## Whole runs -/

theorem coherent_hashersFree (S : Set ℕ) : HashersFree (Coherent S) :=
  ⟨fun h _ => h, fun h _ => h, fun h _ => h⟩

theorem coherent_keeps : Keeps (fun _ => True) KeepsOrder fun S _ => Coherent S := by
  have hr := coherent_reqsFree ∅
  refine KeepsPieces.keeps { coherent_queue with
    gotInfo := fun h _ _ hC => h.gotInfo (hC.1 _ rfl)
    addPeerConn := fun h _ => hr.peerConnAdded h
    addWebSeed := fun h _ => h.addWebSeed _ _ _
    receiveChunk := fun h _ _ _ => h.receiveChunk _ _ _ _ _
    fill := fun h _ _ => hr.maybeUpdateActualRequestState (fun _ _ => trivial) h _ _ _
    updateWebseed := fun h _ _ _ => hr.maybeUpdateActualRequestState (fun _ _ => trivial) h _ _ _
    webseedResult := fun h _ _ => hr.unbooks.requestResultHandler (hr.reqs h _) fun _ _ ht₁ =>
      ht₁.receiveChunk _ _ _ _ _
    writeChunk := fun {t k stop} h => ?_
    chunkWritten := fun h => h.chunkWritten _ _
    hashPiece := fun h => (coherent_hashersFree _).hashPiece h _ _
    hashed := fun {_ _ i _} h _ => h.mono (subset_insert i _)
    toMarking := fun h _ _ => h
    marking := fun h i _ => h.mono (subset_insert i _)
    markedComplete := fun h => (coherent_hashersFree _).markedComplete h _ _
    verified := fun h _ => (coherent_hashersFree _).setVerified h _ _
    done := fun h _ => h
    unspawn := fun h => h
    storageCompletion := fun h _ => h
    prio := coherent_priorities
    reorder := fun h _ => h
    closeTorrent := fun h _ => h.closeTorrent } fun S _ => coherent_peersSafe S
  · unfold writeChunk
    split
    · exact h
    · exact Ends.require (fun _ => h) fun _ => trivial

theorem coherent_init (cfg : Config) (storage : Storage) : Coherent ∅ (.init cfg storage) :=
  fun _ => ⟨⟨rfl, rfl, nodup_nil⟩, fun _ hinfo => nomatch hinfo⟩

theorem coherent_entries (h : Coherent ∅ t) (hopen : t.closed = false)
    (hstorage : t.storageOpen = true) (hi : i < t.numPieces) : UpToDate t i := by
  rw [storageOpen, Bool.and_eq_true] at hstorage
  cases hinfo : t.info with
  | none => simp [haveInfo, hinfo] at hstorage
  | some info =>
    have hlt : i < info.numPieces := by simpa [numPieces, hinfo] using hi
    exact ((h hopen).2 info hinfo).2 hstorage.2 i hlt (notMem_empty i)

/-- The step adds no connection to `connsWithAllPieces` and removes none with the info known. Any
handler may fail and so drop a connection, which makes this a condition on what the step does:
`moves` counts these changes. -/
def KeepsHaveAll (t : Torrent) (e : Event) : Prop :=
  Ends (fun _ => True) (fun t' => t'.avail.moves = t.avail.moves) (t.step e)

instance (t : Torrent) (e : Event) : Decidable (KeepsHaveAll t e) :=
  inferInstanceAs (Decidable (Ends _ _ _))

theorem moves_zero (cfg : Config) (storage : Storage) (events : List Event)
    (hC : Meets step KeepsHaveAll (init cfg storage) events) :
    Gives (fun t => t.avail.moves = 0) (run step (init cfg storage) events) :=
  hC.ends (fun _ _ hzero hsame => hsame.imp fun _ hmoves => hmoves.trans hzero) rfl

/-- Both: the entries stay up to date. -/
def KeepsEntries (t : Torrent) (e : Event) : Prop := KeepsOrder t e ∧ KeepsHaveAll t e

instance (t : Torrent) (e : Event) : Decidable (KeepsEntries t e) :=
  inferInstanceAs (Decidable (_ ∧ _))

theorem UpToDate.entry (h : UpToDate t i) (hmoves : t.avail.moves = 0) :
    t.order i = some (t.requestStrategyPieceOrderState i) := by
  obtain ⟨a, hentry, ha⟩ := h
  rw [hentry, ha hmoves]
  rfl

theorem coherent_run (cfg : Config) (storage : Storage) (events : List Event)
    (hC : Meets step KeepsEntries (init cfg storage) events) :
    Gives (fun t => Coherent ∅ t ∧ t.avail.moves = 0) (run step (init cfg storage) events) := by
  have hcoherent := coherent_keeps.run (coherent_init cfg storage) (hC.imp fun _ _ h => h.1)
  have hmoves := moves_zero cfg storage events (hC.imp fun _ _ h => h.2)
  exact (hcoherent.and hmoves).imp fun t ⟨⟨h, _⟩, hzero⟩ => ⟨h, hzero⟩

/-- **The piece request order is coherent** in every run in which infos are regular, no file of a
torrent without piece length is given a priority, and no step changes `connsWithAllPieces` with the
info known: each entry is what `requestStrategyPieceOrderState` computes. -/
theorem order_coherent (cfg : Config) (storage : Storage) (events : List Event)
    (hC : Meets step KeepsEntries (init cfg storage) events) :
    Gives (fun t => t.closed = false → t.storageOpen = true → ∀ i < t.numPieces,
        t.order i = some (t.requestStrategyPieceOrderState i))
      (run step (init cfg storage) events) := by
  refine (coherent_run cfg storage events hC).imp fun t ⟨h, hmoves⟩ hopen hstorage i hi => ?_
  exact (coherent_entries h hopen hstorage hi).entry hmoves

/-- One empty piece, in a torrent without piece length. -/
def emptyInfo : Info where
  pieceLength := 0
  fileLengths := [0]
  numPieces := 1
  files_ne := by decide
  valid := by decide

/-- **An entry goes stale** when a connection with all pieces joins, and when a file gets a priority
in a torrent without piece length. -/
theorem order_stale :
    Reaches (fun t => t.closed = false ∧ t.storageOpen = true ∧ 0 < t.numPieces ∧
        t.order 0 ≠ some (t.requestStrategyPieceOrderState 0))
      (run step (init smallConfig emptyStorage)
        [.setInfo smallInfo, .addConn 1 true false none, pieceMessage .haveAll 0]) ∧
    Reaches (fun t => t.closed = false ∧ t.storageOpen = true ∧ 0 < t.numPieces ∧
        t.order 0 ≠ some (t.requestStrategyPieceOrderState 0))
      (run step (init smallConfig emptyStorage)
        [.setInfo emptyInfo, .setFilePriority 0 .normal]) := by
  decide

/-- A connection has all pieces before the info is known, another announces one after that. -/
def download : List Event :=
  [.addConn 1 true false none, pieceMessage .haveAll 0, .setInfo smallInfo,
    .addConn 2 true false none, .message 2 { type := .have_ } (.other false) 0,
    .downloadPieces 0 1]

theorem download_coherent :
    Reaches (fun t => t.closed = false ∧ t.storageOpen = true ∧ t.numPieces = 1 ∧
        t.order 0 = some ⟨.normal, false, 2⟩)
      (run step (init smallConfig emptyStorage) download) ∧
    Gives (fun t => t.closed = false → t.storageOpen = true → ∀ i < t.numPieces,
        t.order i = some (t.requestStrategyPieceOrderState i))
      (run step (init smallConfig emptyStorage) download) :=
  ⟨by decide,
    order_coherent smallConfig emptyStorage download (by decide)⟩

end ReliableBT
