import ReliableBT.Torrent.Data
import ReliableBT.Torrent.Order

/-!
# Fully downloaded pieces are checked (`receiveChunk`, `pieceHashed`, `queuePieceCheck`)

A piece whose chunks are all dirty and written is looked at by nobody again: no chunk of it is
requested, so no further write will find that it was the last. `receiveChunk` queues the piece when
the last pending write of it returns and all its chunks are dirty by then. From there on somebody is
responsible for it, the queue, a hasher, or `pieceHashed` while it marks the piece, until its chunks
are pended again.

* `downloaded_pieces_checked`: so it is in every run whose infos are regular, however writes, checks
  and failures interleave, and whether or not the piece is complete.
* `wrapped_piece_unchecked`: where request indexes wrap, two pieces share an index. The chunk of one
  makes the other one look downloaded, and nobody checks it.

The invariant does not hold all the way through the turn of a hasher with the lock, which gives up
its flags before the chunks are pended.
-/

open ReliableBT.Bitmap Nat List Option Function

namespace ReliableBT

open Torrent

variable {t : Torrent} {info : Info} {cs i r : Nat} {S : Set ℕ}

/-- All chunks of the piece are dirty. -/
def Torrent.AllDirty (t : Torrent) (i : Nat) : Prop :=
  ∀ c < t.pieceNumChunks i, u32 (t.pieceRequestIndexOffset i + c) ∈ t.dirtyChunks

instance (t : Torrent) (i : Nat) : Decidable (t.AllDirty i) :=
  inferInstanceAs (Decidable (∀ c < _, _))

/-- Somebody is responsible for the piece. -/
def Torrent.BeingChecked (t : Torrent) (i : Nat) : Prop :=
  i ∈ t.hash.queued ∨ t.hash.hashing i = true ∨ t.hash.marking i = true

instance (t : Torrent) (i : Nat) : Decidable (t.BeingChecked i) :=
  inferInstanceAs (Decidable (_ ∨ _ ∨ _))

/-- A downloaded piece, other than those of `S`, is being checked. -/
def Checked (S : Set ℕ) (t : Torrent) : Prop :=
  t.closed = false → ∀ i < t.numPieces, i ∉ S → 0 < t.pieceNumChunks i → t.AllDirty i →
    t.writes.pendingWrites i = 0 → t.BeingChecked i

/-- The piece has chunks, and one of them is not dirty. -/
def Incomplete (i : Nat) (t : Torrent) : Prop := 0 < t.pieceNumChunks i → ¬ t.AllDirty i

/-! ## Where dirty chunks are -/

/-- The request index is that of a chunk of piece `i`. -/
def Info.IsChunk (info : Info) (cs i r : Nat) : Prop :=
  i < info.numPieces ∧ ∃ c < info.pieceNumChunks cs i, r = i * info.chunksPerRegularPiece cs + c

/-- Dirty chunks, and those in flight, are chunks of the torrent, which is regular. -/
structure Placed (cfg : Config) (info : Option Info) (dirty : Bitmap)
    (inFlight : List ChunkWrite) : Prop where
  regular : ∀ info' ∈ info, info'.Regular cfg.chunkSize
  dirty : ∀ r ∈ dirty, ∃ info' ∈ info, ∃ i, info'.IsChunk cfg.chunkSize i r
  writes : ∀ w ∈ inFlight, ∃ info' ∈ info, info'.IsChunk cfg.chunkSize w.index w.req

namespace Info

theorem pieceNumChunks_le (hreg : info.Regular cs) (hcs : 0 < cs) (i : Nat) :
    info.pieceNumChunks cs i ≤ info.chunksPerRegularPiece cs := by
  have hfit := hreg.1
  have hlen : info.pieceLen i ≤ info.pieceLength := pieceLen_le_pieceLength i
  rw [hreg.chunksPerRegularPiece_eq hcs, pieceNumChunks, u32_of_lt (by omega)]
  exact Nat.div_le_div_right (by omega)

theorem Regular.lt_pieceNumChunks (hreg : info.Regular cs) (hcs : 0 < cs) {b : Nat}
    (hb : b < info.pieceLen i) : b / cs < info.pieceNumChunks cs i := by
  have hfit := hreg.1
  have hlen : info.pieceLen i ≤ info.pieceLength := pieceLen_le_pieceLength i
  rw [pieceNumChunks, u32_of_lt (by omega)]
  exact div_lt_roundUp hcs hb

theorem IsChunk.piece (h : info.IsChunk cs i r) (hreg : info.Regular cs) (hcs : 0 < cs) :
    r / info.chunksPerRegularPiece cs = i := by
  obtain ⟨-, c, hc, rfl⟩ := h
  have hlt : c < info.chunksPerRegularPiece cs := hc.trans_le (pieceNumChunks_le hreg hcs i)
  rw [add_comm, add_mul_div_right _ _ (zero_lt_of_lt hlt), div_eq_of_lt hlt, zero_add]

theorem IsChunk.lt (h : info.IsChunk cs i r) (hreg : info.Regular cs) (hcs : 0 < cs) :
    r < 2 ^ 32 := by
  obtain ⟨hi, c, hc, rfl⟩ := h
  rw [← hreg.chunkIndex hi (hc.trans_le (pieceNumChunks_le hreg hcs i))]
  exact u32_lt _

end Info

theorem allDirty_iff (hinfo : t.info = some info) (hreg : info.Regular t.cfg.chunkSize)
    (hi : i < info.numPieces) :
    t.AllDirty i ↔ ∀ r, info.IsChunk t.cfg.chunkSize i r → r ∈ t.dirtyChunks := by
  have hindex : ∀ c < info.pieceNumChunks t.cfg.chunkSize i,
      u32 (info.pieceRequestIndexOffset t.cfg.chunkSize i + c) =
        i * info.chunksPerRegularPiece t.cfg.chunkSize + c := fun c hc =>
    hreg.chunkIndex hi (hc.trans_le (Info.pieceNumChunks_le hreg t.cfg.chunkSize_pos i))
  simp only [AllDirty, pieceNumChunks, pieceRequestIndexOffset, hinfo, map_some, getD_some]
  constructor
  · rintro hall r ⟨-, c, hc, rfl⟩
    rw [← hindex c hc]
    exact hall c hc
  · intro hall c hc
    rw [hindex c hc]
    exact hall _ ⟨hi, c, hc, rfl⟩

theorem Placed.rangeElems_perm (h : Placed t.cfg t.info t.dirtyChunks t.writes.inFlight)
    (hinfo : t.info = some info) (hi : i < info.numPieces) (hall : t.AllDirty i) :
    (t.dirtyChunks.rangeElems (i * info.chunksPerRegularPiece t.cfg.chunkSize)
      ((i + 1) * info.chunksPerRegularPiece t.cfg.chunkSize)).Perm
      (List.range' (i * info.chunksPerRegularPiece t.cfg.chunkSize)
        (info.pieceNumChunks t.cfg.chunkSize i)) := by
  have hcs := t.cfg.chunkSize_pos
  have hreg := h.regular info hinfo
  have hle := Info.pieceNumChunks_le hreg hcs i
  have hnext : (i + 1) * info.chunksPerRegularPiece t.cfg.chunkSize =
      i * info.chunksPerRegularPiece t.cfg.chunkSize +
        info.chunksPerRegularPiece t.cfg.chunkSize := by rw [add_mul, one_mul]
  refine (perm_ext_iff_of_nodup (t.dirtyChunks.nodup.filter _) nodup_range').mpr fun r => ?_
  rw [List.mem_filter, List.mem_range'_1, mem_elems]
  simp only [Bool.and_eq_true, decide_eq_true_eq]
  constructor
  · rintro ⟨hr, hlo, hhi⟩
    obtain ⟨info', hinfo', j, hj⟩ := h.dirty r hr
    cases hinfo.symm.trans hinfo'
    have hji : j = i := (hj.piece hreg hcs).symm.trans (Nat.div_eq_of_lt_le hlo hhi)
    obtain ⟨-, c, hc, rfl⟩ := hji ▸ hj
    omega
  · rintro ⟨hlo, hhi⟩
    have hr : info.IsChunk t.cfg.chunkSize i r :=
      ⟨hi, r - i * info.chunksPerRegularPiece t.cfg.chunkSize, by omega, by omega⟩
    exact ⟨(allDirty_iff hinfo hreg hi).mp hall r hr, hlo, by omega⟩

theorem Placed.pieceAllDirty (h : Placed t.cfg t.info t.dirtyChunks t.writes.inFlight)
    (hi : i < t.numPieces) (hpos : 0 < t.pieceNumChunks i) (hall : t.AllDirty i) :
    t.pieceAllDirty i = true := by
  obtain ⟨info, hinfo⟩ : ∃ info, t.info = some info := by
    cases hinfo : t.info with
    | none => simp [numPieces, hinfo] at hi
    | some info => exact ⟨info, rfl⟩
  have hreg := h.regular info hinfo
  have hi' : i < info.numPieces := by simpa [numPieces, hinfo] using hi
  have hle := Info.pieceNumChunks_le hreg t.cfg.chunkSize_pos i
  have hpos' : 0 < info.pieceNumChunks t.cfg.chunkSize i := by
    simpa [pieceNumChunks, hinfo] using hpos
  have hbound : (i + 1) * info.chunksPerRegularPiece t.cfg.chunkSize < 2 ^ 32 :=
    lt_of_le_of_lt (mul_le_mul_right _ hi') hreg.2
  have hnext : (i + 1) * info.chunksPerRegularPiece t.cfg.chunkSize =
      i * info.chunksPerRegularPiece t.cfg.chunkSize +
        info.chunksPerRegularPiece t.cfg.chunkSize := by rw [add_mul, one_mul]
  rw [Torrent.pieceAllDirty, decide_eq_true_eq]
  simp only [numDirtyChunks, pieceNumChunks, pieceRequestIndexOffset, hinfo, map_some, getD_some]
  rw [hreg.offset_eq (le_of_lt hi'), hreg.offset_eq hi',
    roaringBitmapRangeCardinality_eq _ (by omega) hbound.le,
    (h.rangeElems_perm hinfo hi' hall).length_eq, length_range', mod_eq_of_lt (by omega)]

/-! ## What happens to chunks -/

theorem Torrent.AllDirty.mono {dirty : Bitmap} (hsub : ∀ r ∈ dirty, r ∈ t.dirtyChunks)
    {writes : Writes} (h : { t with dirtyChunks := dirty, writes := writes }.AllDirty i) :
    t.AllDirty i := fun c hc => hsub _ (h c hc)

namespace Placed

variable {cfg : Config} {dirty dirty' : Bitmap} {inFlight inFlight' : List ChunkWrite} {k : Nat}
  {w : ChunkWrite} {known : Option Info}

theorem fewer (h : Placed cfg known dirty inFlight) (hdirty : ∀ r ∈ dirty', r ∈ dirty)
    (hflight : ∀ w ∈ inFlight', w ∈ inFlight) : Placed cfg known dirty' inFlight' :=
  ⟨h.regular, fun r hr => h.dirty r (hdirty r hr), fun w hw => h.writes w (hflight w hw)⟩

theorem begun (h : Placed cfg (some info) dirty inFlight)
    (hw : info.IsChunk cfg.chunkSize w.index w.req) :
    Placed cfg (some info) (dirty.add w.req) (inFlight ++ [w]) where
  regular := h.regular
  dirty r hr := by
    rcases mem_add.mp hr with rfl | hr
    · exact ⟨info, rfl, w.index, hw⟩
    · exact h.dirty r hr
  writes w' hw' := by
    rcases mem_append.mp hw' with hw' | hw'
    · exact h.writes w' hw'
    · rw [mem_singleton.mp hw']
      exact ⟨info, rfl, hw⟩

theorem writing (h : Placed cfg known dirty inFlight) (hk : inFlight[k]? = some w) (n : Nat) :
    Placed cfg known dirty (inFlight.set k { w with written := n }) where
  regular := h.regular
  dirty := h.dirty
  writes w' hw' := by
    rcases mem_or_eq_of_mem_set hw' with hw' | rfl
    · exact h.writes w' hw'
    · exact h.writes w (mem_of_getElem? hk)

end Placed

/-- The invariant: dirty chunks are where they should be, and downloaded pieces are checked. -/
structure InCheck (t : Torrent) : Prop where
  placed : Placed t.cfg t.info t.dirtyChunks t.writes.inFlight
  checked : Checked ∅ t

theorem InCheck.pendAll (h : InCheck t) (i : Nat) : InCheck (t.pendAllChunkSpecs i) where
  placed := h.placed.fewer (fun _ hr => (mem_removeRange.mp hr).1) fun _ hw => hw
  checked hopen j hj hjS hpos hall hzero :=
    h.checked hopen j hj hjS hpos (AllDirty.mono (fun _ hr => (mem_removeRange.mp hr).1) hall) hzero

theorem Placed.pendAll_incomplete (h : Placed t.cfg t.info t.dirtyChunks t.writes.inFlight)
    (hi : i < t.numPieces) : Incomplete i (t.pendAllChunkSpecs i) := by
  intro hpos hall
  cases hinfo : t.info with
  | none => simp [numPieces, hinfo] at hi
  | some info =>
    have hreg := h.regular info hinfo
    have hi' : i < info.numPieces := by simpa [numPieces, hinfo] using hi
    have hle := Info.pieceNumChunks_le hreg t.cfg.chunkSize_pos i
    have hpos' : 0 < info.pieceNumChunks t.cfg.chunkSize i := by
      simpa [pieceNumChunks, pendAllChunkSpecs, hinfo] using hpos
    have hfirst := (allDirty_iff (t := t.pendAllChunkSpecs i) hinfo hreg hi').mp hall
      (i * info.chunksPerRegularPiece t.cfg.chunkSize) ⟨hi', 0, hpos', rfl⟩
    refine (mem_removeRange.mp hfirst).2 ?_
    simp only [pieceRequestIndexOffset, hinfo, map_some, getD_some]
    rw [hreg.offset_eq (le_of_lt hi'), hreg.offset_eq hi', succ_mul]
    omega

theorem Placed.onIncompletePiece (h : Placed t.cfg t.info t.dirtyChunks t.writes.inFlight)
    (hi : i < t.numPieces) : Incomplete i (t.onIncompletePiece i) := by
  have haside : Aside (Incomplete i) := ⟨fun h _ _ => h, fun h _ _ => h, fun h _ _ => h⟩
  have hpend : Incomplete i (if t.pieceAllDirty i then t.pendAllChunkSpecs i else t) := by
    split_ifs with hdirty
    · exact h.pendAll_incomplete hi
    · exact fun hpos hall => hdirty (h.pieceAllDirty hi hpos hall)
  unfold Torrent.onIncompletePiece
  dsimp only
  revert hpend
  generalize (if t.pieceAllDirty i then t.pendAllChunkSpecs i else t) = t₁
  intro hpend
  split_ifs
  · exact hpend
  · exact haside.notifyIncomplete hpend i _

theorem InCheck.begun (h : InCheck t) {w : ChunkWrite} {n : Nat}
    (hvalid : t.checkValidReceiveChunk ⟨w.index, w.begin, n⟩ = none)
    (hreq : w.req = t.requestIndexFromRequest ⟨w.index, w.begin, n⟩) :
    InCheck (t.writeBegun w) := by
  obtain ⟨info, hinfo, hindex, hbegin⟩ := valid_info hvalid
  have hcs := t.cfg.chunkSize_pos
  have hreg := h.placed.regular info hinfo
  have hchunk : info.IsChunk t.cfg.chunkSize w.index w.req := by
    refine ⟨hindex, w.begin / t.cfg.chunkSize, hreg.lt_pieceNumChunks hcs hbegin, ?_⟩
    rw [hreq, requestIndexFromRequest, pieceRequestIndexOffset, hinfo, map_some,
      getD_some, hreg.requestIndex hcs hindex hbegin]
  have hdirty : (t.writeBegun w).dirtyChunks = t.dirtyChunks.add w.req := by rw [hreq]; rfl
  have hplaced := h.placed
  rw [hinfo] at hplaced
  have hbegun := hplaced.begun hchunk
  rw [← hdirty, ← hinfo] at hbegun
  refine ⟨hbegun, fun hopen j hj hjS hpos hall hzero => ?_⟩
  have hne : j ≠ w.index := by
    rintro rfl
    simp [writeBegun] at hzero
  have hj' : j < info.numPieces := by simpa [numPieces, writeBegun, hinfo] using hj
  refine h.checked hopen j hj hjS hpos ?_ ?_
  · rw [allDirty_iff (t := t.writeBegun w) hinfo hreg hj', hdirty] at hall
    refine (allDirty_iff hinfo hreg hj').mpr fun r hr => ?_
    refine (mem_add.mp (hall r hr)).resolve_left fun heq => hne ?_
    exact (hr.piece hreg hcs).symm.trans ((heq ▸ hchunk).piece hreg hcs)
  · simpa [writeBegun, update_of_ne hne] using hzero

/-! ## Queueing -/

theorem inCheck_peersFree : PeersFree (fun _ => True) InCheck where
  ctl h _ _ := ⟨h.placed, h.checked⟩
  buf h _ _ := ⟨h.placed, h.checked⟩
  up h _ _ := ⟨h.placed, h.checked⟩
  panic _ _ := trivial
  reqs h _ := ⟨h.placed, h.checked⟩
  availPanic _ _ := trivial
  relative h _ := ⟨h.placed, h.checked⟩
  closed h _ := ⟨h.placed, h.checked⟩
  pieces h _ := ⟨h.placed, h.checked⟩
  sentHaveAll h _ := ⟨h.placed, h.checked⟩
  withAll h _ _ := ⟨h.placed, h.checked⟩
  order h _ := ⟨h.placed, h.checked⟩
  conns h _ := ⟨h.placed, h.checked⟩

theorem inCheck_pendingFree : PendingFree InCheck :=
  ⟨inCheck_peersFree.toReqsFree.toAside, fun h _ => ⟨h.placed, h.checked⟩⟩

theorem InCheck.flags (h : InCheck t) {hash : Hashing}
    (hflags : ∀ i, t.BeingChecked i → { t with hash := hash }.BeingChecked i) :
    InCheck { t with hash := hash } :=
  ⟨h.placed, fun hopen i hi hiS hpos hall hzero =>
    hflags i (h.checked hopen i hi hiS hpos hall hzero)⟩

theorem inCheck_upkeep : Upkeep (fun _ => True) (fun _ => True) fun _ _ => InCheck where
  aside _ _ := inCheck_pendingFree.toAside
  index _ _ := trivial
  mono _ h := h
  order _ h := inCheck_peersFree.updatePieceRequestOrder h _
  update _ h reason := inCheck_pendingFree.updatePiecePriority trivial (fun _ => h)
    (fun _ => inCheck_peersFree.updatePieceRequestOrder h _) reason
  pendAll _ _ h := h.pendAll _
  complete _ _ h _ := ⟨h.placed, h.checked⟩
  unchanged _ _ h := ⟨h.placed, h.checked⟩
  cancelRequest h r := inCheck_peersFree.unbooks.cancelRequest h r
  drop h _ _ := inCheck_peersFree.safe.dropConnection h _

theorem inCheck_queue : Queue (fun _ => True) (fun _ => True) fun _ _ => InCheck where
  toTending := inCheck_upkeep.toTending
  updatePieceCompletion {S d _ _} hi h :=
    inCheck_upkeep.updatePieceCompletion (S := S) (d := d) hi h
  queued _ _ := trivial
  queue _ _ h := h.flags fun j hj => hj.imp_left fun hmem => mem_add.mpr (.inr hmem)
  begin {_ _ t i} h _ := by
    refine h.flags fun j hj => ?_
    by_cases hji : j = i
    · exact .inr (.inl (update_true_iff.mpr (.inl hji)))
    · exact hj.imp (fun hmem => mem_remove.mpr ⟨hmem, hji⟩)
        (.imp_left fun hhashing => update_true_iff.mpr (.inr hhashing))
  spawn _ _ _ h := ⟨h.placed, h.checked⟩

theorem Checked.queuePieceCheck (hplaced : Placed t.cfg t.info t.dirtyChunks t.writes.inFlight)
    (h : Checked {i} t) : Gives InCheck (t.queuePieceCheck i) := by
  refine Ends.require (fun _ => ?_) fun _ => trivial
  split_ifs with hqueued
  · refine ⟨hplaced, fun hopen j hj _ hpos hall hzero => ?_⟩
    by_cases hji : j = i
    · exact .inl (hji ▸ hqueued)
    · exact h hopen j hj hji hpos hall hzero
  · have hin : InCheck { t with hash.queued := t.hash.queued.add i } := by
      refine ⟨hplaced, fun hopen j hj _ hpos hall hzero => ?_⟩
      by_cases hji : j = i
      · exact .inl (mem_add.mpr (.inl hji))
      · exact (h hopen j hj hji hpos hall hzero).imp_left fun hmem => mem_add.mpr (.inr hmem)
    refine (inCheck_queue.update (S := ∅) (d := none) trivial hin _).bind fun t₁ h₁ => ?_
    exact inCheck_queue.tryCreateMorePieceHashers (S := ∅) (d := none) h₁

/-! ## The turns of a hasher -/

theorem incomplete_peersFree (i : Nat) : PeersFree (fun _ => True) (Incomplete i) where
  ctl h _ _ := h
  buf h _ _ := h
  up h _ _ := h
  panic _ _ := trivial
  reqs h _ := h
  availPanic _ _ := trivial
  relative h _ := h
  closed h _ := h
  pieces h _ := h
  sentHaveAll h _ := h
  withAll h _ _ := h
  order h _ := h
  conns h _ := h

theorem incomplete_plain (i : Nat) : Plain (fun _ => True) (fun _ => True) (Incomplete i) :=
  (incomplete_peersFree i).plain (fun h _ => h)
    (fun _ h hpos hall =>
      h hpos (AllDirty.mono (fun _ hr => (mem_removeRange.mp hr).1) hall))
    (fun _ h _ => h) (fun h _ _ _ _ => h) fun h _ => h

namespace InCheck

section

variable (h : InCheck t)
include h

theorem unmark (hi : t.closed = true ∨ Incomplete i t) : InCheck (t.setMarking i false) := by
  refine ⟨h.placed, fun hopen j hj hjS hpos hall hzero => ?_⟩
  have hchecked := h.checked hopen j hj hjS hpos hall hzero
  by_cases hji : j = i
  · subst hji
    rcases hi with hclosed | hinc
    · exact absurd (hclosed.symm.trans hopen) nofun
    · exact absurd hall (hinc hpos)
  · exact hchecked.imp_right (.imp_right (update_of_ne hji _ _).trans)

theorem hasherDone (k i : Nat) : Gives InCheck (t.hasherDone k i) :=
  (inCheck_queue.update (S := ∅) (d := none) trivial h _).bind fun _ h₁ =>
    inCheck_queue.tryCreateMorePieceHashers (S := ∅) (d := none) ⟨h₁.placed, h₁.checked⟩

theorem pieceFailed (i : Nat) (bans : List Nat) (ok : Bool) :
    Gives InCheck (t.pieceFailed i bans ok) := by
  have hban : Gives InCheck (doIf (t.pieceAllDirty i) t (bans.foldlM ban t)) :=
    Ends.doIf (fun _ => Ends.foldlM h fun _ h' p _ => inCheck_peersFree.safe.ban h' p) fun _ => h
  refine hban.bind fun t₁ h₁ => ?_
  refine Ends.require (fun hi => ?_) fun _ => trivial
  have h₂ : InCheck (t₁.onIncompletePiece i) :=
    inCheck_queue.onIncompletePiece (S := ∅) (d := none) trivial hi h₁
  have hinc := h₁.placed.onIncompletePiece hi
  have hkeep : ∀ t', InCheck t' → Incomplete i t' →
      InCheck (t'.markComplete i false ok) ∧ Incomplete i (t'.markComplete i false ok) := by
    intro t' h' hinc'
    unfold markComplete
    split_ifs
    · exact ⟨⟨h'.placed, h'.checked⟩, hinc'⟩
    · exact ⟨h', hinc'⟩
  have hmark := hkeep _ h₂ hinc
  refine ((inCheck_queue.updatePieceCompletion (S := ∅) (d := none) trivial hmark.1).and
    ((incomplete_plain i).updatePieceCompletion trivial hmark.2)).bind fun t₂ h₃ => ?_
  exact h₃.1.unmark (.inr h₃.2)

theorem pieceHasher (k : Nat) (drops bans : List Nat) (ok : Bool) :
    Gives InCheck (t.pieceHasher k drops bans ok) := by
  unfold Torrent.pieceHasher
  split
  · rename_i i bytes hk
    have hdrops : Gives InCheck (doIf (t.cfg.hashOk i bytes) t (drops.foldlM dropBanned t)) :=
      Ends.doIf (fun _ => Ends.foldlM h fun _ h' p _ => inCheck_peersFree.safe.dropBanned h' p)
        fun _ => h
    refine hdrops.bind fun t₁ h₁ => ?_
    -- the piece passes from hashing to marking
    have hmark : InCheck (setMarking
        { t₁ with hash.hashing := update t₁.hash.hashing i false } i true) := by
      refine ⟨h₁.placed, fun hopen j hj hjS hpos hall hzero => ?_⟩
      have hchecked := h₁.checked hopen j hj hjS hpos hall hzero
      by_cases hji : j = i
      · exact .inr (.inr (update_true_iff.mpr (.inl hji)))
      · exact hchecked.imp_right (.imp (update_of_ne hji _ _).trans
          fun hmarking => update_true_iff.mpr (.inr hmarking))
    dsimp only
    split_ifs with hclosed
    · have hgone : InCheck { t₁ with hash.hashing := update t₁.hash.hashing i false } :=
        ⟨h₁.placed, fun hopen => absurd (hclosed.symm.trans hopen) nofun⟩
      exact hgone.hasherDone k i
    · exact ⟨hmark.placed, hmark.checked⟩
    · exact (hmark.pieceFailed i bans ok).bind fun _ h₂ => h₂.hasherDone k i
  · exact h

theorem pieceMarked (k : Nat) : Gives InCheck (t.pieceMarked k) := by
  unfold Torrent.pieceMarked
  split
  · rename_i i bytes hk
    have hpassed : Gives InCheck (t.piecePassed i bytes) := by
      unfold piecePassed
      split_ifs with hclosed
      · exact h.unmark (.inl hclosed)
      · refine Ends.require (fun hi => ?_) fun _ => trivial
        refine ((inCheck_queue.updatePieceCompletion (S := ∅) (d := none) trivial
          (h.pendAll i)).and ((incomplete_plain i).updatePieceCompletion trivial
          (h.placed.pendAll_incomplete hi))).bind ?_
        rintro t₁ ⟨h₁, hinc⟩
        refine ends_pure.mpr ?_
        unfold setVerified
        split_ifs
        · exact InCheck.unmark ⟨h₁.placed, h₁.checked⟩ (.inr hinc)
        · exact h₁.unmark (.inr hinc)
    exact hpassed.bind fun _ h₁ => h₁.hasherDone k i
  · exact h

/-! ## Writes return -/

theorem returned (k i : Nat) : Placed t.cfg t.info t.dirtyChunks
      (t.writeReturned k i).writes.inFlight ∧ Checked {i} (t.writeReturned k i) := by
  refine ⟨h.placed.fewer (fun _ hr => hr) fun _ hw => mem_of_mem_eraseIdx hw, ?_⟩
  intro hopen j hj hjS hpos hall hzero
  have hsame : (t.writeReturned k i).writes.pendingWrites j = t.writes.pendingWrites j :=
    update_of_ne hjS _ _
  exact h.checked hopen j hj (Set.notMem_empty j) hpos hall (hsame.symm.trans hzero)

theorem chunkStored (k : Nat) (w : ChunkWrite) :
    Gives InCheck ((t.writeReturned k w.index).chunkStored w) := by
  obtain ⟨hplaced, hchecked⟩ := h.returned k w.index
  unfold Torrent.chunkStored
  dsimp only
  split_ifs with hlast
  · exact Checked.queuePieceCheck (t := (t.writeReturned k w.index).cover w) hplaced hchecked
  · refine ⟨hplaced, fun hopen j hj _ hpos hall hzero => ?_⟩
    by_cases hjw : j = w.index
    · subst hjw
      exact absurd ⟨Placed.pieceAllDirty (t := (t.writeReturned k w.index).cover w) hplaced hj hpos
        hall, hzero⟩ hlast
    · exact hchecked hopen j hj hjw hpos hall hzero

theorem chunkPended {k : Nat} {w : ChunkWrite}
    (hk : t.writes.inFlight[k]? = some w) :
    InCheck ((t.writeReturned k w.index).chunkPended
      (u32 (t.pieceRequestIndexOffset (t.pieceIndexOfRequestIndex w.req) +
        w.req % t.chunksPerRegularPiece))) := by
  obtain ⟨hplaced, hchecked⟩ := h.returned k w.index
  obtain ⟨info, hinfo, hchunk⟩ := h.placed.writes w (mem_of_getElem? hk)
  have hreg := h.placed.regular info hinfo
  have hreq : u32 (t.pieceRequestIndexOffset (t.pieceIndexOfRequestIndex w.req) +
      w.req % t.chunksPerRegularPiece) = w.req := by
    rw [pieceRequestIndexOffset, pieceIndexOfRequestIndex, chunksPerRegularPiece,
      show t.info = some info from hinfo]
    exact pendRequest_index info t.cfg.chunkSize (hchunk.lt hreg t.cfg.chunkSize_pos)
  rw [hreq]
  refine ⟨hplaced.fewer (fun _ hr => (mem_remove.mp hr).1) fun _ hw => hw,
    fun hopen j hj _ hpos hall hzero => ?_⟩
  by_cases hjw : j = w.index
  · subst hjw
    have hmem := (allDirty_iff (t := (t.writeReturned k w.index).chunkPended w.req) hinfo hreg
      hchunk.1).mp hall w.req hchunk
    exact absurd rfl (mem_remove.mp hmem).2
  · exact hchecked hopen j hj hjw hpos (AllDirty.mono (fun _ hr => (mem_remove.mp hr).1) hall) hzero

theorem receiveChunk (p index begin : Nat) (data : List UInt8) (now : Nat) :
    Gives (fun x => InCheck x.1) (t.receiveChunk p index begin data now) := by
  have hJ := inCheck_peersFree.toReqsFree.and (steered_reqsFree t)
  refine hJ.unbooks.receiveChunk (fun _ h' => h'.1) ⟨h, rfl⟩ p index begin data now
    fun t' ⟨h', hs⟩ _ hvalid => ?_
  refine inCheck_peersFree.beginWrite (h'.begun (n := u32 data.length) ?_ ?_) now
  · rw [hs]
    exact hvalid
  · rw [hs]
    rfl

end

end InCheck

/-! ## Runs -/

theorem inCheck_keepsSteps : KeepsSteps (fun _ => True) BringsRegular fun _ _ => InCheck := by
  have hp := inCheck_peersFree
  have hhashers : HashersFree InCheck :=
    ⟨fun h _ => ⟨h.placed, h.checked⟩, fun h _ => ⟨h.placed, h.checked⟩,
      fun h _ => ⟨h.placed, h.checked⟩⟩
  exact { inCheck_queue, KeepsPeers.ofSafe fun _ _ => hp.safe with
    gotInfo := fun {t info} h _ hinfo hC =>
      hp.gotInfo (I := fun _ _ => InCheck) inCheck_queue h (by
        unfold setInfo
        split_ifs
        · trivial
        · -- without an info nothing was dirty
          have hclean : ∀ r, r ∉ t.dirtyChunks := fun r hr => by
            obtain ⟨_, hsome, -⟩ := h.placed.dirty r hr
            exact nomatch hinfo.symm.trans hsome
          have hidle : ∀ w, w ∉ t.writes.inFlight := fun w hw => by
            obtain ⟨_, hsome, -⟩ := h.placed.writes w hw
            exact nomatch hinfo.symm.trans hsome
          exact {
            placed := ⟨fun _ hsome => hC _ hsome, fun r hr => absurd hr (hclean r),
              fun w hw => absurd hw (hidle w)⟩
            checked := fun _ _ _ _ hpos hall _ => absurd (hall 0 hpos) (hclean _) })
    addPeerConn := fun h _ => hp.peerConnAdded ⟨h.placed, h.checked⟩
    addWebSeed := fun h _ => hp.toAvailFree.addWebSeed ⟨h.placed, h.checked⟩
    receiveChunk := fun h _ _ _ => h.receiveChunk _ _ _ _ _
    fill := fun h _ _ => hp.maybeUpdateActualRequestState (fun _ _ => trivial) h _ _ _
    updateWebseed := fun h _ _ _ => hp.maybeUpdateActualRequestState (fun _ _ => trivial) h _ _ _
    webseedResult := fun h _ _ =>
      hp.unbooks.requestResultHandler (hp.reqs h _) fun _ _ h₁ => h₁.receiveChunk _ _ _ _ _
    writeChunk := fun {t k stop} h => by
      unfold writeChunk
      split
      · exact h
      · rename_i w hk
        exact Ends.require (fun _ => ⟨h.placed.writing hk _, h.checked⟩) fun _ => trivial
    chunkWritten := fun h => hp.chunkWritten h (fun _ _ _ => trivial) (fun _ _ _ => trivial)
      (fun w _ => h.chunkStored _ w) fun _ hk _ _ => h.chunkPended hk
    hashPiece := fun h => hhashers.hashPiece h _ _
    markedComplete := fun h => hhashers.markedComplete h _ _
    storageCompletion := fun h _ => ⟨h.placed, h.checked⟩
    prio := .ofFree (fun _ _ => trivial)
      (fun h => inCheck_queue.update (S := ∅) (d := none) trivial h)
      fun h _ => ⟨h.placed, h.checked⟩
    reorder := fun h _ => ⟨h.placed, h.checked⟩
    closeTorrent := fun h _ => hp.toAvailFree.closeTorrent
      (fun h' => ⟨h'.placed, fun hopen => nomatch hopen⟩) hp.safe.close h
    pieceHasher := fun _ h => h.pieceHasher
    pieceMarked := fun h => h.pieceMarked }

theorem inCheck_init (cfg : Config) (storage : Storage) : InCheck (init cfg storage) :=
  ⟨⟨fun _ hnone => absurd hnone (not_mem_none _), fun _ hr => absurd hr (not_mem_empty _),
    fun _ hw => absurd hw not_mem_nil⟩, fun _ _ hi => absurd hi (not_lt_zero _)⟩

/-- **Fully downloaded pieces are checked** in every run whose infos are regular: if all chunks of a
piece are dirty and none of its writes is pending, the piece is queued, or being hashed, or being
marked. -/
theorem downloaded_pieces_checked (cfg : Config) (storage : Storage) (events : List Event)
    (hC : Meets step BringsRegular (init cfg storage) events) :
    Gives (fun t => t.closed = false → ∀ i < t.numPieces, 0 < t.pieceNumChunks i → t.AllDirty i →
        t.writes.pendingWrites i = 0 → t.BeingChecked i)
      (run step (init cfg storage) events) := by
  exact (inCheck_keepsSteps.run (inCheck_init cfg storage) hC).imp
    fun t ⟨h, _⟩ hopen i hi hpos hall hzero =>
      h.checked hopen i hi (Set.notMem_empty i) hpos hall hzero

/-- **A piece that nobody checks.** The last piece is wanted; its chunk has the index of the first
chunk of the first piece, which is what is requested and received. -/
theorem wrapped_piece_unchecked :
    Reaches (fun t => t.closed = false ∧ t.storageOpen = true ∧ 2 < t.numPieces ∧
        t.pieceNumChunks 2 = 1 ∧ t.pieceComplete 2 = false ∧ t.AllDirty 2 ∧
        t.pieceAllDirty 2 = true ∧ t.writes.pendingWrites 2 = 0 ∧ ¬ t.BeingChecked 2)
      (run step (init byteConfig emptyStorage)
        [.setInfo wrappingInfo, .addConn 1 true false none, pieceMessage .haveAll 0,
          .downloadPieces 2 3, pieceMessage .unchoke 0, .fill 1 {} [] 0 [],
          .message 1 { type := .piece, piece := [7] } (.other false) 0, .writeChunk 0 1,
          .chunkWritten 0 true]) := by
  decide

/-- Both chunks of the piece arrive. -/
def bothAnswered : List Event :=
  answer 0 [1, 2, 3, 4] ++ [.chunkWritten 0 true, .fill 1 {} [] 0 [],
    .message 1 { type := .piece, begin := 4, piece := [5, 6, 7, 8] } (.other false) 0,
    .writeChunk 0 4, .chunkWritten 0 true]

theorem bothAnswered_checked :
    Reaches (fun t => t.closed = false ∧ 0 < t.numPieces ∧ 0 < t.pieceNumChunks 0 ∧
        t.AllDirty 0 ∧ t.writes.pendingWrites 0 = 0)
        (run step (init smallConfig emptyStorage) bothAnswered) ∧
      Gives (fun t => t.closed = false → ∀ i < t.numPieces, 0 < t.pieceNumChunks i → t.AllDirty i →
          t.writes.pendingWrites i = 0 → t.BeingChecked i)
        (run step (init smallConfig emptyStorage) bothAnswered) :=
  ⟨by decide,
    downloaded_pieces_checked smallConfig emptyStorage bothAnswered (by decide)⟩

/-- **Dirty chunks are chunks.** In every run whose infos are regular, a request index that is
marked dirty stands for a chunk of a piece, and a write that is under way marks a chunk of its own
piece. -/
theorem dirty_chunks_placed (cfg : Config) (storage : Storage) (events : List Event)
    (hC : Meets step BringsRegular (init cfg storage) events) :
    Gives (fun t => (∀ r ∈ t.dirtyChunks, ∃ info ∈ t.info, ∃ i, info.IsChunk t.cfg.chunkSize i r) ∧
        ∀ w ∈ t.writes.inFlight, ∃ info ∈ t.info, info.IsChunk t.cfg.chunkSize w.index w.req)
      (run step (init cfg storage) events) :=
  (inCheck_keepsSteps.run (inCheck_init cfg storage) hC).imp
    fun _ h => ⟨h.1.placed.dirty, h.1.placed.writes⟩

theorem bothAnswered_placed :
    Reaches (fun t => 0 ∈ t.dirtyChunks ∧ 1 ∈ t.dirtyChunks)
        (run step (init smallConfig emptyStorage) bothAnswered) ∧
      Gives
        (fun t => (∀ r ∈ t.dirtyChunks, ∃ info ∈ t.info, ∃ i, info.IsChunk t.cfg.chunkSize i r) ∧
          ∀ w ∈ t.writes.inFlight, ∃ info ∈ t.info, info.IsChunk t.cfg.chunkSize w.index w.req)
        (run step (init smallConfig emptyStorage) bothAnswered) :=
  ⟨by decide, dirty_chunks_placed smallConfig emptyStorage bothAnswered (by decide)⟩

end ReliableBT
