import ReliableBT.Torrent.Data

/-!
# Dirty means downloaded (`receiveChunk`, `unpendChunkIndex`, `pendChunkIndex`)

`receiveChunk` marks a chunk dirty before it is written, under the index that the begin of the
message rounds down to, and then writes whatever bytes the message has, from begin on. Neither is
compared with the chunk. A message that begins inside its chunk, or whose data ends before the chunk
does, leaves bytes of a dirty chunk that nobody has written.

* `dirty_chunks_covered`: in a run of a regular torrent whose delivered chunks are whole chunks,
  every byte of a dirty chunk of a piece without pending writes was covered by a successful write
  since the chunk was last pended.
* `short_chunk_dirty`: one byte, written successfully, leaves a dirty chunk with three bytes that
  were never written.
-/

open Nat List Option Function

namespace ReliableBT

open Torrent

/-- A chunk that the event delivers to be written begins where a chunk does and reaches its end; an
info that it brings is regular. -/
def WholeChunks (t : Torrent) (e : Event) : Prop :=
  (∀ c ∈ e.delivers, t.wouldWrite c → c.2.1 % t.cfg.chunkSize = 0 ∧
    min (c.2.1 + t.cfg.chunkSize) (t.pieceLength c.1) ≤ c.2.1 + c.2.2.length) ∧
  ∀ info ∈ e.brings, info.Regular t.cfg.chunkSize

instance (t : Torrent) (e : Event) : Decidable (WholeChunks t e) :=
  inferInstanceAs (Decidable ((∀ c ∈ e.delivers, _ → _ ∧ _) ∧ ∀ info ∈ e.brings, _))

/-- The write covers the chunk it is for. -/
structure ForChunk (info : Info) (cs : Nat) (w : ChunkWrite) : Prop where
  req_lt : w.req < 2 ^ 32
  piece : info.pieceIndexOfRequestIndex cs w.req = w.index
  bytes : ∀ k, info.chunkBytes cs w.req k → w.begin ≤ k ∧ k < w.begin + w.data.length

/-- Dirty chunks are covered, or their write is in flight. -/
structure Coverage (info : Info) (cs : Nat) (dirty : Bitmap) (writes : Writes) : Prop where
  regular : info.Regular cs
  dirty : ∀ r ∈ dirty, (∃ w ∈ writes.inFlight, w.req = r) ∨
    ∀ k, info.chunkBytes cs r k → writes.covered r k = true
  chunk : ∀ w ∈ writes.inFlight, ForChunk info cs w

/-- Before there is an info nothing is dirty; after that dirty chunks are covered. -/
structure DirtyCovered (d : TorrentData) : Prop where
  noInfo : d.info = none → (∀ r, r ∉ d.dirtyChunks) ∧ d.writes.inFlight = []
  covered : ∀ info ∈ d.info, Coverage info d.cfg.chunkSize d.dirtyChunks d.writes
  counted : Counted d.writes.inFlight d.writes.pendingWrites

variable {info : Info} {cs : Nat} {t : Torrent}

theorem forChunk_of_whole (hreg : info.Regular cs) (hcs : 0 < cs) {w : ChunkWrite}
    (hindex : w.index < info.numPieces) (hbegin : w.begin < info.pieceLen w.index)
    (hreq : w.req = u32 (info.pieceRequestIndexOffset cs w.index + w.begin / cs))
    (hstart : w.begin % cs = 0)
    (hend : min (w.begin + cs) (info.pieceLen w.index) ≤ w.begin + w.data.length) :
    ForChunk info cs w := by
  have hc := hreg.chunk_lt hcs (lt_of_lt_of_le hbegin (Info.pieceLen_le_pieceLength _))
  have hlt : w.req < 2 ^ 32 := hreq ▸ u32_lt _
  rw [hreg.requestIndex hcs hindex hbegin] at hreq
  have hpos : 0 < info.chunksPerRegularPiece cs := lt_of_le_of_lt (zero_le _) hc
  have hdiv : w.req / info.chunksPerRegularPiece cs = w.index := by
    rw [hreq, add_comm, add_mul_div_right _ _ hpos, div_eq_of_lt hc, zero_add]
  have hmod : w.req % info.chunksPerRegularPiece cs = w.begin / cs := by
    rw [hreq, add_comm, add_mul_mod_self_right, mod_eq_of_lt hc]
  have hround : w.begin / cs * cs = w.begin := Nat.div_mul_cancel (Nat.dvd_of_mod_eq_zero hstart)
  refine ⟨hlt, hdiv, fun k hk => ?_⟩
  simp only [Info.chunkBytes, Info.pieceIndexOfRequestIndex, hdiv, hmod, hround] at hk
  omega

/-! ## What happens to chunks -/

namespace Coverage

variable {dirty : Bitmap} {writes : Writes} {k : Nat} {w : ChunkWrite}

section

variable (h : Coverage info cs dirty writes)
include h

theorem begun (hw : ForChunk info cs w)
    (pending : Nat → Nat) : Coverage info cs (dirty.add w.req)
      { writes with pendingWrites := pending, inFlight := writes.inFlight ++ [w] } where
  regular := h.regular
  dirty r hr := by
    rcases Bitmap.mem_add.mp hr with rfl | hr
    · exact .inl ⟨w, mem_append_right _ (mem_singleton_self w), rfl⟩
    · refine (h.dirty r hr).imp (fun ⟨w', hw', hreq⟩ => ?_) id
      exact ⟨w', mem_append_left _ hw', hreq⟩
  chunk w' hw' := by
    rcases mem_append.mp hw' with hw' | hw'
    · exact h.chunk w' hw'
    · rw [mem_singleton.mp hw']
      exact hw

theorem writing (hk : writes.inFlight[k]? = some w) (n : Nat) :
    Coverage info cs dirty
      { writes with inFlight := writes.inFlight.set k { w with written := n } } where
  regular := h.regular
  dirty r hr := by
    refine (h.dirty r hr).imp (fun ⟨w', hw', hreq⟩ => ?_) id
    rcases mem_cons.mp ((perm_eraseIdx hk).mem_iff.mpr hw') with rfl | hrest
    · exact ⟨_, (perm_set hk).mem_iff.mp mem_cons_self, hreq⟩
    · exact ⟨w', (perm_set hk).mem_iff.mp (mem_cons_of_mem _ hrest), hreq⟩
  chunk w' hw' := by
    rcases mem_or_eq_of_mem_set hw' with hw' | rfl
    · exact h.chunk w' hw'
    · have hw := h.chunk w (mem_of_getElem? hk)
      exact ⟨hw.req_lt, hw.piece, hw.bytes⟩

theorem stored (hk : writes.inFlight[k]? = some w)
    (pending : Nat → Nat) : Coverage info cs dirty
      { pendingWrites := pending
        inFlight := writes.inFlight.eraseIdx k
        covered := fun r k => writes.covered r k ||
          (decide (info.pieceIndexOfRequestIndex cs r = w.index) && decide (w.begin ≤ k) &&
            decide (k < w.begin + w.data.length)) } where
  regular := h.regular
  dirty r hr := by
    rcases h.dirty r hr with ⟨w', hw', rfl⟩ | hcov
    · rcases mem_cons.mp ((perm_eraseIdx hk).mem_iff.mpr hw') with rfl | hrest
      · -- the write that returned was the chunk's
        right
        intro k hk
        have hw := h.chunk w' hw'
        simp [hw.piece, hw.bytes k hk]
      · exact .inl ⟨w', hrest, rfl⟩
    · right
      intro k hk
      simp [hcov k hk]
  chunk w' hw' := h.chunk w' (mem_of_mem_eraseIdx hw')

theorem failed (hk : writes.inFlight[k]? = some w)
    (pending : Nat → Nat) : Coverage info cs (dirty.remove w.req)
      { pendingWrites := pending
        inFlight := writes.inFlight.eraseIdx k
        covered := update writes.covered w.req fun _ => false } where
  regular := h.regular
  dirty r hr := by
    obtain ⟨hr, hne⟩ := Bitmap.mem_remove.mp hr
    rcases h.dirty r hr with ⟨w', hw', rfl⟩ | hcov
    · rcases mem_cons.mp ((perm_eraseIdx hk).mem_iff.mpr hw') with rfl | hrest
      · exact absurd rfl hne
      · exact .inl ⟨w', hrest, rfl⟩
    · right
      intro k hk
      simp only [update_of_ne hne]
      exact hcov k hk
  chunk w' hw' := h.chunk w' (mem_of_mem_eraseIdx hw')

theorem pended (lo hi : Nat) :
    Coverage info cs (dirty.removeRange lo hi)
      { writes with
        covered := fun r => if lo ≤ r ∧ r < hi then fun _ => false else writes.covered r } where
  regular := h.regular
  dirty r hr := by
    obtain ⟨hr, hout⟩ := Bitmap.mem_removeRange.mp hr
    refine (h.dirty r hr).imp id fun hcov k hk => ?_
    simp only [if_neg hout]
    exact hcov k hk
  chunk := h.chunk

end

end Coverage

/-! ## All steps -/

theorem dirtyCovered_peersFree : PeersFree (fun _ => True) fun t => DirtyCovered t.data :=
  peersFree_data fun _ _ _ => trivial

theorem DirtyCovered.info_of_inFlight (h : DirtyCovered t.data) {k : Nat} {w : ChunkWrite}
    (hk : t.writes.inFlight[k]? = some w) : ∃ info, t.info = some info := by
  cases hinfo : t.info with
  | none =>
    have hnil : t.writes.inFlight = [] := (h.noInfo hinfo).2
    rw [hnil] at hk
    cases hk
  | some info => exact ⟨info, rfl⟩

theorem dirtyCovered_chunksOnly : ChunksOnly (fun _ => True) WholeChunks DirtyCovered where
  panic _ _ _ := trivial
  hashing h _ _ _ _ := ⟨h.noInfo, h.covered, h.counted⟩
  setInfo {t info} h hinfo hC := by
    obtain ⟨hdirty, hflight⟩ := h.noInfo hinfo
    refine ⟨fun hnone => absurd hnone (some_ne_none info), fun info' hinfo' => ?_, h.counted⟩
    cases hinfo'
    refine ⟨hC.2 info rfl, fun r hr => absurd hr (hdirty r), fun w hw => ?_⟩
    rw [show t.data.writes.inFlight = [] from hflight] at hw
    cases hw
  pendAll {t i} h := by
    refine ⟨fun hnone => ⟨fun r hr => ?_, (h.noInfo hnone).2⟩, fun info hinfo => ?_, h.counted⟩
    · exact (h.noInfo hnone).1 r (Bitmap.mem_removeRange.mp hr).1
    · exact (h.covered info hinfo).pended _ _
  write {t w e} h hwrite _ hreq hC he := by
    obtain ⟨info, hinfo, hindex, hbegin⟩ := valid_info hwrite.1
    obtain ⟨hstart, hend⟩ := hC.1 _ he hwrite
    have hcov := h.covered info hinfo
    simp only [requestIndexFromRequest, pieceRequestIndexOffset, hinfo, map_some, getD_some] at hreq
    simp only [pieceLength, hinfo, map_some, getD_some] at hend
    have hw : ForChunk info t.cfg.chunkSize w :=
      forChunk_of_whole hcov.regular t.cfg.chunkSize_pos hindex hbegin hreq hstart hend
    refine ⟨fun hnone => ?_, fun info' hinfo' => ?_, h.counted.begun w⟩
    · cases hinfo.symm.trans hnone
    · cases hinfo.symm.trans hinfo'
      have hbegun := hcov.begun hw (t.writeBegun w).writes.pendingWrites
      rw [hreq] at hbegun
      simpa [writeBegun, data, pieceRequestIndexOffset, hinfo] using hbegun
  fill h _ := dirtyCovered_peersFree.maybeUpdateActualRequestState (fun _ _ => trivial) h _ _ _
  updateWebseed h _ :=
    dirtyCovered_peersFree.maybeUpdateActualRequestState (fun _ _ => trivial) h _ _ _
  overflow _ _ _ _ := trivial
  noPending _ _ _ _ := trivial
  writing {t k w n} stop h hk := by
    obtain ⟨info, hinfo⟩ := h.info_of_inFlight hk
    have hsome : t.info ≠ none := hinfo ▸ some_ne_none info
    refine ⟨fun hnone => absurd hnone hsome, fun info' hinfo' => ?_, h.counted.set hk rfl⟩
    exact (h.covered info' hinfo').writing hk n
  stored {t k w} h hk := by
    obtain ⟨info, hinfo⟩ := h.info_of_inFlight hk
    have hsome : t.info ≠ none := hinfo ▸ some_ne_none info
    refine ⟨fun hnone => absurd hnone hsome, fun info' hinfo' => ?_, h.counted.returned hk⟩
    cases hinfo.symm.trans hinfo'
    have hstored :=
      (h.covered info hinfo).stored hk (t.writeReturned k w.index).writes.pendingWrites
    simpa [writeReturned, cover, data, pieceIndexOfRequestIndex, chunksPerRegularPiece,
      Info.pieceIndexOfRequestIndex, hinfo] using hstored
  failed {t k w} h hk hcpp := by
    obtain ⟨info, hinfo⟩ := h.info_of_inFlight hk
    have hsome : t.info ≠ none := hinfo ▸ some_ne_none info
    refine ⟨fun hnone => absurd hnone hsome, fun info' hinfo' => ?_, h.counted.returned hk⟩
    cases hinfo.symm.trans hinfo'
    have hcov := h.covered info hinfo
    have hfailed := hcov.failed hk (t.writeReturned k w.index).writes.pendingWrites
    have hidx := pendRequest_index info t.cfg.chunkSize (hcov.chunk w (mem_of_getElem? hk)).req_lt
    rw [← hidx] at hfailed
    simpa [writeReturned, chunkPended, data, pieceIndexOfRequestIndex, chunksPerRegularPiece,
      pieceRequestIndexOffset, Info.pieceIndexOfRequestIndex, hinfo] using hfailed

/-- If a chunk is dirty and its piece has no pending writes, every byte of it was covered by a
successful write since it was last pended. -/
def DirtyDownloaded (t : Torrent) : Prop :=
  ∀ info, t.info = some info → ∀ r ∈ t.dirtyChunks,
    t.writes.pendingWrites (t.pieceIndexOfRequestIndex r) = 0 →
    ∀ k, info.chunkBytes t.cfg.chunkSize r k → t.writes.covered r k = true

/-- **Dirty means downloaded** in every run of a regular torrent whose delivered chunks are
whole. -/
theorem dirty_chunks_covered (cfg : Config) (storage : Storage) (events : List Event)
    (hC : Meets step WholeChunks (init cfg storage) events) :
    Gives DirtyDownloaded (run step (init cfg storage) events) := by
  have hinit : DirtyCovered (init cfg storage).data :=
    ⟨fun _ => ⟨Bitmap.not_mem_empty, rfl⟩, fun _ h => (nomatch h), fun _ => Nat.le_refl 0⟩
  refine (dirtyCovered_chunksOnly.aboutData.dataOnly.keeps.run hinit hC).imp
    fun t ⟨ht, _⟩ info hinfo r hr hpending => ?_
  have hcov := ht.covered info hinfo
  rcases hcov.dirty r hr with ⟨w, hw, rfl⟩ | h
  · -- a write of this chunk in flight would be a pending write of its piece
    have hpiece : t.pieceIndexOfRequestIndex w.req = w.index := by
      rw [pieceIndexOfRequestIndex, chunksPerRegularPiece, hinfo]
      exact (hcov.chunk w hw).piece
    rw [hpiece] at hpending
    exact absurd rfl (ht.counted.not_inFlight hpending w hw)
  · exact h

theorem short_chunk_dirty :
    Reaches (fun t => t.info = some smallInfo ∧ 0 ∈ t.dirtyChunks ∧
        t.writes.pendingWrites (t.pieceIndexOfRequestIndex 0) = 0 ∧
        smallInfo.chunkBytes t.cfg.chunkSize 0 1 ∧ t.writes.covered 0 1 = false)
      (run step (init smallConfig emptyStorage) (answer 0 [1] ++ [.chunkWritten 0 true])) := by
  decide

theorem whole_chunk_covered :
    Reaches (fun t => 0 ∈ t.dirtyChunks)
        (run step (init smallConfig emptyStorage)
          (answer 0 [1, 2, 3, 4] ++ [.chunkWritten 0 true])) ∧
      Gives DirtyDownloaded (run step (init smallConfig emptyStorage)
          (answer 0 [1, 2, 3, 4] ++ [.chunkWritten 0 true])) :=
  ⟨by decide, dirty_chunks_covered smallConfig emptyStorage
    (answer 0 [1, 2, 3, 4] ++ [.chunkWritten 0 true]) (by decide)⟩

end ReliableBT
