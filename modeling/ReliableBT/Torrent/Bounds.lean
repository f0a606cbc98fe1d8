import ReliableBT.Torrent.Data

/-!
# Chunk writes stay inside the piece (`receiveChunk`, `storage.Piece.WriteAt`)

`checkValidReceiveChunk` checks that a received chunk begins inside its piece, and a chunk is
expected if it begins anywhere in a requested chunk. Nobody looks at where it ends: the check
`chunkOverflowsPiece` is only made for what remote peers request. A peer can therefore answer a
request with a message that ends behind the piece, and `WriteAt` panics.

* `Info.Regular.request_end`: the request that a byte of a piece lies in ends inside the piece.
* `writes_inside_piece`: in a run of a regular torrent where no delivered chunk ends behind the
  request that it begins in, writes end inside their pieces, and the panic is not reached.
* `long_chunk_overflows`: a connection with the first chunk requested that sends six bytes from its
  last byte on makes it be reached.
-/

namespace ReliableBT

open Torrent List Option Nat

/-- A chunk that the event delivers to be written ends no later than the request that it begins in;
an info that it brings is regular. -/
def AsRequested (t : Torrent) (e : Event) : Prop :=
  (∀ c ∈ e.delivers, t.wouldWrite c →
    let asked := t.requestIndexToRequest
      (t.requestIndexFromRequest ⟨c.1, c.2.1, u32 c.2.2.length⟩)
    c.2.1 + c.2.2.length ≤ asked.begin + asked.length) ∧ BringsRegular t e

instance (t : Torrent) (e : Event) : Decidable (AsRequested t e) :=
  inferInstanceAs (Decidable ((∀ c ∈ e.delivers, _ → _) ∧ _))

theorem Info.Regular.request_end {info : Info} {cs i b : Nat} (h : info.Regular cs) (hcs : 0 < cs)
    (hi : i < info.numPieces) (hb : b < info.pieceLen i) :
    let asked := info.requestIndexToRequest cs (u32 (info.pieceRequestIndexOffset cs i + b / cs))
    asked.begin + asked.length ≤ info.pieceLen i := by
  have hlen : info.pieceLen i ≤ info.pieceLength := Info.pieceLen_le_pieceLength i
  have hfit := h.1
  have hc := h.chunk_lt hcs (hb.trans_le hlen)
  have hround := div_mul_le_self b cs
  have hmod : u32 (info.pieceRequestIndexOffset cs i + b / cs) %
      info.chunksPerRegularPiece cs = b / cs := by
    rw [h.chunkIndex hi hc, add_comm, add_mul_mod_self_right, mod_eq_of_lt hc]
  dsimp only [Info.requestIndexToRequest, Info.pieceIndexOfRequestIndex, chunkIndexSpec]
  rw [h.piece_of_chunkIndex hi hc, hmod, u32_of_lt (n := b / cs * cs) (by omega),
    u32_of_lt (n := b / cs * cs + cs) (by omega)]
  split
  · rw [u32]
    dsimp only
    omega
  · dsimp only
    omega

/-- Writes of a regular torrent end inside their pieces, and there are none before the info. -/
structure InBounds (cs : Nat) (info : Option Info) (inFlight : List ChunkWrite) : Prop where
  fit : ∀ w ∈ inFlight, w.begin + w.data.length ≤ (info.map (·.metaPieceLength w.index)).getD 0
  noInfo : info = none → inFlight = []
  regular : ∀ i ∈ info, i.Regular cs

theorem InBounds.subset {cs : Nat} {info : Option Info} {inFlight inFlight' : List ChunkWrite}
    (h : InBounds cs info inFlight) (hsub : inFlight' ⊆ inFlight) :
    InBounds cs info inFlight' where
  fit w hw := h.fit w (hsub hw)
  regular := h.regular
  noInfo hnone := by
    rw [h.noInfo hnone] at hsub
    exact subset_nil.mp hsub

/-- All panics but the one of `WriteAt`. -/
def NotOverflow (e : Panic) : Prop := e ≠ .writeOverflowsPiece

theorem notOverflow_of_group {e : Panic} (h : e.group ≠ .store) : NotOverflow e :=
  fun he => h (by rw [he]; rfl)

/-- Every write in flight ends inside its piece. -/
def WritesFit (d : TorrentData) : Prop := InBounds d.cfg.chunkSize d.info d.writes.inFlight

theorem writesFit_peersFree : PeersFree NotOverflow fun t => WritesFit t.data :=
  peersFree_data fun _ _ hstore => notOverflow_of_group hstore

theorem writesFit_chunksOnly : ChunksOnly NotOverflow AsRequested WritesFit where
  panic _ _ hstore := notOverflow_of_group hstore
  hashing h _ _ _ _ := h
  setInfo {t info} h hinfo hC := by
    have hnil : t.writes.inFlight = [] := h.noInfo hinfo
    refine ⟨fun w hw => ?_, fun hnone => absurd hnone (some_ne_none info), hC.2⟩
    rw [show t.data.writes.inFlight = [] from hnil] at hw
    cases hw
  pendAll h := h
  write {t w e} h hwrite _ _ hC he := by
    obtain ⟨info, hinfo, hindex, hbegin⟩ := valid_info hwrite.1
    have hsome : t.info ≠ none := hinfo ▸ some_ne_none info
    refine ⟨fun w' hw' => ?_, fun hnone => absurd hnone hsome, h.regular⟩
    rcases mem_append.mp hw' with hw' | hw'
    · exact h.fit w' hw'
    · have hend := hC.1 _ he hwrite
      have hregular : info.Regular t.cfg.chunkSize := h.regular info hinfo
      have hasked := hregular.request_end t.cfg.chunkSize_pos hindex hbegin
      rw [mem_singleton.mp hw', show (t.writeBegun w).data.info = some info from hinfo]
      refine (hend.trans ?_).trans (Info.pieceLen_le_metaPieceLength _)
      simpa [requestIndexToRequest, requestIndexFromRequest, pieceRequestIndexOffset, hinfo]
        using hasked
  fill h _ := writesFit_peersFree.maybeUpdateActualRequestState
    (fun _ he => notOverflow_of_group (by rw [he]; decide)) h _ _ _
  updateWebseed h _ := writesFit_peersFree.maybeUpdateActualRequestState
    (fun _ he => notOverflow_of_group (by rw [he]; decide)) h _ _ _
  overflow h w hw hover := absurd (h.fit w hw) (Nat.not_le_of_lt hover)
  noPending _ _ _ _ := nofun
  writing {t k w n} stop h hk := by
    have hw : w ∈ t.writes.inFlight := mem_of_getElem? hk
    refine ⟨fun w' hw' => ?_, fun hnone => ?_, h.regular⟩
    · rcases mem_or_eq_of_mem_set hw' with hw' | rfl
      · exact h.fit w' hw'
      · exact h.fit w hw
    · rw [show t.writes.inFlight = [] from h.noInfo hnone] at hw
      cases hw
  stored h _ := h.subset (eraseIdx_sublist _ _).subset
  failed h _ _ := h.subset (eraseIdx_sublist _ _).subset

/-- **Chunk writes stay inside the piece** in every run of a regular torrent whose delivered chunks
end where they are requested to, or before: every write in flight ends inside its piece, and
`WriteAt` does not panic. -/
theorem writes_inside_piece (cfg : Config) (storage : Storage) (events : List Event)
    (hC : Meets step AsRequested (init cfg storage) events) :
    Ends (fun e => e ≠ .writeOverflowsPiece)
      (fun t => ∀ w ∈ t.writes.inFlight, w.begin + w.data.length ≤ t.metaPieceLength w.index)
      (run step (init cfg storage) events) := by
  have hinit : WritesFit (init cfg storage).data :=
    ⟨fun w hw => (not_mem_nil hw).elim, fun _ => rfl, fun _ h => absurd h (not_mem_none _)⟩
  exact (writesFit_chunksOnly.aboutData.dataOnly.keeps.run hinit hC).imp fun t ht => ht.1.fit

theorem long_chunk_overflows :
    FailsWith .writeOverflowsPiece
      (run step (init smallConfig emptyStorage) (answer 3 [1, 2, 3, 4, 5, 6])) := by
  decide

theorem chunk_answer_fits :
    Reaches (fun t => t.writes.inFlight.length = 1)
        (run step (init smallConfig emptyStorage) (answer 0 [1, 2, 3, 4])) ∧
      Ends (fun e => e ≠ .writeOverflowsPiece)
        (fun t => ∀ w ∈ t.writes.inFlight, w.begin + w.data.length ≤ t.metaPieceLength w.index)
        (run step (init smallConfig emptyStorage) (answer 0 [1, 2, 3, 4])) :=
  ⟨by decide,
    writes_inside_piece smallConfig emptyStorage (answer 0 [1, 2, 3, 4]) (by decide)⟩

end ReliableBT
