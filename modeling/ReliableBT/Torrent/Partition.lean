import ReliableBT.Torrent.Reader

/-!
# The chunks are a partition of the data (`torrent.go`, `misc.go`)

Two independent computations cut the data into requests. `requestIndexToRequest` starts from the
number of a chunk and is what the client asks peers for; `torrentOffsetRequest` starts from a byte
and is what a reader waits for. The last chunk of a piece and the last piece of the torrent are cut
short in both, by different formulas.

`Counted` is the assumption: all sizes are positive, a piece length and a chunk size together, and
the number of chunks, are below `2 ^ 32`. It is weaker than `Info.Regular` about the last piece:
only the chunks that it has are counted.

* `validIndex_iff`: the valid indexes are those of the chunks that start inside a piece.
* `toRequest_chunk`, `offsetRequest_chunk`: both computations give the chunk of a piece as `chunk`
  does.
* `partition`: indexes and requests are in bijection, the requests are a partition of the data, and
  `torrentOffsetRequest` finds the part.
* `undirtied_exact`: the iteration over the chunks of a piece that are not dirty is exact.
-/

open List Nat Option

namespace ReliableBT

namespace Info

variable (info : Info) (cs : Nat)

/-- `numChunks` -/
def numChunks : Nat :=
  if info.numPieces = 0 then 0
  else u32 (u32 (u32 (info.numPieces - 1) * info.chunksPerRegularPiece cs) +
    info.pieceNumChunks cs (info.numPieces - 1))

/-- The number of chunks, computed exactly. -/
def chunkCount : Nat :=
  ((range info.numPieces).map fun i => (info.metaPieceLength i + cs - 1) / cs).sum

/-- All sizes are positive, and the sizes that must be are below `2 ^ 32`. -/
structure Counted : Prop where
  data : 0 < info.totalLength
  piece : 0 < info.pieceLength
  chunk : 0 < cs
  fits : info.pieceLength + cs < 2 ^ 32
  count : info.chunkCount cs < 2 ^ 32

instance : Decidable (info.Counted cs) :=
  decidable_of_iff (0 < info.totalLength ∧ 0 < info.pieceLength ∧ 0 < cs ∧
    info.pieceLength + cs < 2 ^ 32 ∧ info.chunkCount cs < 2 ^ 32)
    ⟨fun ⟨h₁, h₂, h₃, h₄, h₅⟩ => ⟨h₁, h₂, h₃, h₄, h₅⟩,
      fun h => ⟨h.data, h.piece, h.chunk, h.fits, h.count⟩⟩

/-- A request index that belongs to a chunk of a piece. -/
def ValidIndex (ri : Nat) : Prop :=
  ri < info.numChunks cs ∧
    ri % info.chunksPerRegularPiece cs <
      info.pieceNumChunks cs (info.pieceIndexOfRequestIndex cs ri)

/-- The requests of the valid indexes. -/
def IsRequest (r : Request) : Prop :=
  ∃ ri, info.ValidIndex cs ri ∧ info.requestIndexToRequest cs ri = r

/-- The byte `k` of the data is asked for. -/
def Asks (r : Request) (k : Nat) : Prop :=
  r.index * info.pieceLength + r.begin ≤ k ∧ k < r.index * info.pieceLength + r.begin + r.length

/-- What makes the chunks a partition of the data. -/
structure IsPartition : Prop where
  from_to : ∀ ri, info.ValidIndex cs ri →
    info.requestIndexFromRequest cs (info.requestIndexToRequest cs ri) = ri
  to_from : ∀ r, info.IsRequest cs r → info.ValidIndex cs (info.requestIndexFromRequest cs r) ∧
    info.requestIndexToRequest cs (info.requestIndexFromRequest cs r) = r
  nonempty : ∀ r, info.IsRequest cs r → 0 < r.length
  disjoint : ∀ r r', info.IsRequest cs r → info.IsRequest cs r' → ∀ k,
    info.Asks r k → info.Asks r' k → r = r'
  cover : ∀ k, k < info.totalLength ↔ ∃ r, info.IsRequest cs r ∧ info.Asks r k
  found : ∀ k, k < info.totalLength → ∃ r, info.offsetRequest cs k = some r ∧
    info.IsRequest cs r ∧ info.Asks r k

/-- The chunk `c` of piece `i`. -/
def chunk (i c : Nat) : Request := ⟨i, c * cs, min cs (info.metaPieceLength i - c * cs)⟩

variable {info cs}

/-! ## Pieces -/

theorem piece_end {i : Nat} (h : info.pieceLength ≠ 0) (hi : i < info.numPieces) :
    i * info.pieceLength + info.metaPieceLength i =
      min ((i + 1) * info.pieceLength) info.totalLength := by
  have hstart := piece_start h hi
  unfold metaPieceLength
  split
  · next hlast =>
    have hend := (last_piece h hlast).2
    omega
  · next hlast =>
    have hnext := piece_start h (by omega : i + 1 < info.numPieces)
    rw [add_mul, one_mul] at hnext ⊢
    omega

theorem metaPieceLength_le {i : Nat} (h : info.pieceLength ≠ 0) (hi : i < info.numPieces) :
    info.metaPieceLength i ≤ info.pieceLength := by
  have hend := piece_end h hi
  rw [add_mul, one_mul] at hend
  omega

theorem pieceLen_eq (i : Nat) (h : info.pieceLength ≠ 0) (hlt : info.pieceLength < 2 ^ 32) :
    info.pieceLen i = info.metaPieceLength i := by
  rw [pieceLen, metaPieceLength, if_neg h]
  by_cases hlast : i + 1 = info.numPieces
  · obtain ⟨hlo, hhi⟩ := last_piece h hlast
    rw [add_mul, one_mul] at hhi
    have hmod := mod_lt info.totalLength (pos_of_ne_zero h)
    have hrest : info.totalLength % info.pieceLength =
        (info.totalLength - i * info.pieceLength) % info.pieceLength := by
      conv_lhs => rw [show info.totalLength =
        (info.totalLength - i * info.pieceLength) + i * info.pieceLength by omega]
      exact add_mul_mod_self_right _ _ _
    rw [u32_of_lt (by omega), u32_of_lt hlt, if_pos hlast]
    by_cases hfull : info.totalLength - i * info.pieceLength = info.pieceLength
    · rw [hrest, hfull, mod_self, if_neg fun hc => hc.2 rfl]
    · rw [hrest, mod_eq_of_lt (by omega), if_pos ⟨hlast, by omega⟩]
  · rw [if_neg fun hc => hlast hc.1, if_neg hlast, u32_of_lt hlt]

namespace Counted

variable (h : info.Counted cs)
include h

theorem piece_ne : info.pieceLength ≠ 0 := pos_iff_ne_zero.mp h.piece

theorem pieceLength_lt : info.pieceLength < 2 ^ 32 := by
  have := h.fits
  omega

theorem numPieces_pos : 0 < info.numPieces := by
  rw [← numPieces_eq h.piece_ne]
  have hdata := h.data
  exact div_pos (by omega) h.piece

variable {i c ri k : Nat}

theorem lt_pieceNumChunks_iff (hi : i < info.numPieces) :
    c < info.pieceNumChunks cs i ↔ c * cs < info.metaPieceLength i := by
  have hle := metaPieceLength_le h.piece_ne hi
  have hfits := h.fits
  rw [pieceNumChunks, pieceLen_eq i h.piece_ne h.pieceLength_lt, u32_of_lt (by omega),
    lt_roundUp_iff h.chunk]

theorem chunksPerRegularPiece_eq :
    info.chunksPerRegularPiece cs = (info.pieceLength + cs - 1) / cs := by
  have hfits := h.fits
  rw [chunksPerRegularPiece, u32_of_lt h.pieceLength_lt, u32_of_lt (by omega)]

theorem lt_chunksPerRegularPiece {b : Nat} (hb : b < info.pieceLength) :
    b / cs < info.chunksPerRegularPiece cs := by
  rw [h.chunksPerRegularPiece_eq]
  exact div_lt_roundUp h.chunk hb

theorem chunk_lt (hi : i < info.numPieces) (hc : c * cs < info.metaPieceLength i) :
    c < info.chunksPerRegularPiece cs := by
  have hle := metaPieceLength_le h.piece_ne hi
  have hlt := h.lt_chunksPerRegularPiece (b := c * cs) (by omega)
  rwa [Nat.mul_div_cancel c h.chunk] at hlt

theorem chunksPerRegularPiece_pos : 0 < info.chunksPerRegularPiece cs :=
  zero_lt_of_lt (h.lt_chunksPerRegularPiece h.piece)

theorem pieceNumChunks_eq (hi : i < info.numPieces) :
    info.pieceNumChunks cs i = (info.metaPieceLength i + cs - 1) / cs := by
  have hle := metaPieceLength_le h.piece_ne hi
  have hfits := h.fits
  rw [pieceNumChunks, pieceLen_eq i h.piece_ne h.pieceLength_lt, u32_of_lt (by omega)]

theorem chunkCount_eq : info.chunkCount cs = (info.numPieces - 1) * info.chunksPerRegularPiece cs +
    info.pieceNumChunks cs (info.numPieces - 1) := by
  have hreg : ∀ m < info.numPieces,
      ((range m).map fun i => (info.metaPieceLength i + cs - 1) / cs).sum =
        m * info.chunksPerRegularPiece cs := by
    intro m hm
    induction m with
    | zero => simp
    | succ m ih =>
      rw [range_succ, map_append, List.sum_append, ih (by omega), map_singleton,
        sum_singleton, metaPieceLength, if_neg (by omega), h.chunksPerRegularPiece_eq,
        add_mul, one_mul]
  have hpos := h.numPieces_pos
  obtain ⟨m, hm⟩ : ∃ m, info.numPieces = m + 1 := ⟨_, (succ_pred hpos.ne').symm⟩
  rw [chunkCount, h.pieceNumChunks_eq (by omega), hm, range_succ, map_append,
    List.sum_append, hreg m (by omega), map_singleton, sum_singleton,
    Nat.add_sub_cancel]

theorem numChunks_eq : info.numChunks cs = info.chunkCount cs := by
  have hpos := h.numPieces_pos
  have hcount := h.count
  have hlast : info.numPieces - 1 ≤ (info.numPieces - 1) * info.chunksPerRegularPiece cs :=
    Nat.le_mul_of_pos_right _ h.chunksPerRegularPiece_pos
  rw [h.chunkCount_eq] at hcount ⊢
  rw [numChunks, if_neg hpos.ne', u32_of_lt (by omega : info.numPieces - 1 < 2 ^ 32),
    u32_of_lt (by omega : (info.numPieces - 1) * info.chunksPerRegularPiece cs < 2 ^ 32),
    u32_of_lt hcount]

/-! ## Indexes -/

theorem div_index (hc : c < info.chunksPerRegularPiece cs) :
    (i * info.chunksPerRegularPiece cs + c) / info.chunksPerRegularPiece cs = i := by
  rw [add_comm, add_mul_div_right _ _ h.chunksPerRegularPiece_pos, div_eq_of_lt hc, zero_add]

omit h in
theorem mod_index (hc : c < info.chunksPerRegularPiece cs) :
    (i * info.chunksPerRegularPiece cs + c) % info.chunksPerRegularPiece cs = c := by
  rw [add_comm, add_mul_mod_self_right, mod_eq_of_lt hc]

theorem pieceNumChunks_le (hi : i < info.numPieces) :
    info.pieceNumChunks cs i ≤ info.chunksPerRegularPiece cs := by
  rw [h.pieceNumChunks_eq hi, h.chunksPerRegularPiece_eq]
  have := metaPieceLength_le h.piece_ne hi
  exact Nat.div_le_div_right (by omega)

theorem piece_count_le (hi : i < info.numPieces) :
    i * info.chunksPerRegularPiece cs + info.pieceNumChunks cs i ≤ info.chunkCount cs := by
  have hnum := h.pieceNumChunks_le hi
  rw [h.chunkCount_eq]
  by_cases hlast : i = info.numPieces - 1
  · rw [← hlast]
  · have hle : (i + 1) * info.chunksPerRegularPiece cs ≤
        (info.numPieces - 1) * info.chunksPerRegularPiece cs :=
      mul_le_mul_right _ (by omega)
    rw [add_mul, one_mul] at hle
    omega

theorem index_lt (hi : i < info.numPieces) (hc : c * cs < info.metaPieceLength i) :
    i * info.chunksPerRegularPiece cs + c < info.chunkCount cs :=
  (Nat.add_lt_add_left ((h.lt_pieceNumChunks_iff hi).mpr hc) _).trans_le (h.piece_count_le hi)

theorem piece_lt (hri : ri < info.numChunks cs) :
    ri / info.chunksPerRegularPiece cs < info.numPieces := by
  have hpos := h.numPieces_pos
  rw [h.numChunks_eq, h.chunkCount_eq] at hri
  have hlast := h.pieceNumChunks_le (by omega : info.numPieces - 1 < info.numPieces)
  rw [div_lt_iff_lt_mul h.chunksPerRegularPiece_pos]
  have hsplit : (info.numPieces - 1 + 1) * info.chunksPerRegularPiece cs =
      info.numPieces * info.chunksPerRegularPiece cs := by
    rw [Nat.sub_add_cancel hpos]
  rw [add_mul, one_mul] at hsplit
  omega

theorem validIndex_iff : info.ValidIndex cs ri ↔
    ∃ i c, i < info.numPieces ∧ c * cs < info.metaPieceLength i ∧
      ri = i * info.chunksPerRegularPiece cs + c := by
  constructor
  · rintro ⟨hlt, hvalid⟩
    have hi := h.piece_lt hlt
    refine ⟨ri / info.chunksPerRegularPiece cs, ri % info.chunksPerRegularPiece cs, hi, ?_,
      (div_add_mod' _ _).symm⟩
    exact (h.lt_pieceNumChunks_iff hi).mp hvalid
  · rintro ⟨i, c, hi, hc, rfl⟩
    have hcpp := h.chunk_lt hi hc
    refine ⟨h.numChunks_eq ▸ h.index_lt hi hc, ?_⟩
    rw [pieceIndexOfRequestIndex, h.div_index hcpp, mod_index hcpp]
    exact (h.lt_pieceNumChunks_iff hi).mpr hc

/-! ## Requests -/

theorem toRequest_chunk (hi : i < info.numPieces) (hc : c * cs < info.metaPieceLength i) :
    info.requestIndexToRequest cs (i * info.chunksPerRegularPiece cs + c) = info.chunk cs i c := by
  have hcpp := h.chunk_lt hi hc
  have hle := metaPieceLength_le h.piece_ne hi
  have hfits := h.fits
  have hidx := h.index_lt hi hc
  have hcount := h.count
  have hi32 : i ≤ i * info.chunksPerRegularPiece cs :=
    Nat.le_mul_of_pos_right i h.chunksPerRegularPiece_pos
  rw [requestIndexToRequest, pieceIndexOfRequestIndex, h.div_index hcpp,
    mod_index hcpp, pieceLen_eq i h.piece_ne h.pieceLength_lt, chunkIndexSpec]
  rw [u32_of_lt (by omega : c * cs < 2 ^ 32), u32_of_lt (by omega : c * cs + cs < 2 ^ 32),
    u32_of_lt (by omega : i < 2 ^ 32), Info.chunk]
  split
  · rw [u32, show 2 ^ 32 + info.metaPieceLength i - c * cs =
      (info.metaPieceLength i - c * cs) + 2 ^ 32 by omega, add_mod_right,
      mod_eq_of_lt (by omega), min_eq_right (by omega)]
  · rw [min_eq_left (by omega)]

theorem byte_in_piece (hk : k < info.totalLength) :
    k / info.pieceLength < info.numPieces ∧
      k % info.pieceLength < info.metaPieceLength (k / info.pieceLength) := by
  have hi : k / info.pieceLength < info.numPieces := by
    rw [← numPieces_eq h.piece_ne]
    exact div_lt_roundUp h.piece hk
  refine ⟨hi, ?_⟩
  have hend := piece_end h.piece_ne hi
  have hsplit := div_add_mod' k info.pieceLength
  have hmod := mod_lt k h.piece
  rw [add_mul, one_mul] at hend
  omega

theorem offsetRequest_chunk (hk : k < info.totalLength) :
    info.offsetRequest cs k =
      some (info.chunk cs (k / info.pieceLength) (k % info.pieceLength / cs)) := by
  obtain ⟨hi, hb⟩ := h.byte_in_piece hk
  have hend := piece_end h.piece_ne hi
  have hle := metaPieceLength_le h.piece_ne hi
  have hfits := h.fits
  have hchunk : k % info.pieceLength / cs * cs ≤ k % info.pieceLength := div_mul_le_self _ _
  have hidx := h.index_lt hi (c := 0) (by omega)
  have hcount := h.count
  have hi32 : k / info.pieceLength ≤ k / info.pieceLength * info.chunksPerRegularPiece cs :=
    Nat.le_mul_of_pos_right _ h.chunksPerRegularPiece_pos
  rw [add_mul, one_mul] at hend
  rw [offsetRequest, if_neg (by omega), Int.toNat_natCast]
  dsimp only
  generalize hI : k / info.pieceLength = i at *
  generalize hC : k % info.pieceLength / cs * cs = b at *
  rw [u32_of_lt (by omega : i < 2 ^ 32), u32_of_lt (by omega : b < 2 ^ 32),
    u32_of_lt (by omega : info.pieceLength - b < 2 ^ 32), u32_of_lt (by omega : cs < 2 ^ 32),
    Info.chunk, hC, some.injEq, Request.mk.injEq]
  refine ⟨rfl, rfl, ?_⟩
  have hlen : (if info.pieceLength - b < cs then info.pieceLength - b else cs) =
      min cs (info.pieceLength - b) := by
    split
    · omega
    · omega
  rw [hlen]
  split
  · rw [u32_of_lt (by omega)]
    omega
  · omega

theorem chunk_asks (hk : k < info.totalLength) :
    info.IsRequest cs (info.chunk cs (k / info.pieceLength) (k % info.pieceLength / cs)) ∧
      info.Asks (info.chunk cs (k / info.pieceLength) (k % info.pieceLength / cs)) k := by
  obtain ⟨hi, hb⟩ := h.byte_in_piece hk
  have hlo : k % info.pieceLength / cs * cs ≤ k % info.pieceLength := div_mul_le_self _ _
  have hhi : k % info.pieceLength < k % info.pieceLength / cs * cs + cs := by
    have := lt_div_mul_add (a := k % info.pieceLength) h.chunk
    omega
  have hsplit := div_add_mod' k info.pieceLength
  refine ⟨⟨_, h.validIndex_iff.mpr ⟨_, _, hi, by omega, rfl⟩, h.toRequest_chunk hi (by omega)⟩, ?_⟩
  unfold Asks Info.chunk
  dsimp only
  omega

theorem eq_of_asks (hi : i < info.numPieces) (hc : c * cs < info.metaPieceLength i)
    (hk : info.Asks (info.chunk cs i c) k) :
    k < info.totalLength ∧ k / info.pieceLength = i ∧ k % info.pieceLength / cs = c := by
  obtain ⟨hlo, hhi⟩ := hk
  dsimp only [Info.chunk] at hlo hhi
  have hend := piece_end h.piece_ne hi
  have hle := metaPieceLength_le h.piece_ne hi
  rw [add_mul, one_mul] at hend
  obtain ⟨b, rfl⟩ : ∃ b, k = i * info.pieceLength + b := ⟨k - i * info.pieceLength, by omega⟩
  have hdiv : (i * info.pieceLength + b) / info.pieceLength = i := by
    rw [add_comm, add_mul_div_right _ _ h.piece, div_eq_of_lt (by omega), zero_add]
  have hmod : (i * info.pieceLength + b) % info.pieceLength = b := by
    rw [add_comm, add_mul_mod_self_right, mod_eq_of_lt (by omega)]
  refine ⟨by omega, hdiv, ?_⟩
  rw [hmod, Nat.div_eq_iff h.chunk]
  omega

theorem isRequest_iff {r : Request} : info.IsRequest cs r ↔
    ∃ i c, i < info.numPieces ∧ c * cs < info.metaPieceLength i ∧ r = info.chunk cs i c := by
  constructor
  · rintro ⟨ri, hri, rfl⟩
    obtain ⟨i, c, hi, hc, rfl⟩ := h.validIndex_iff.mp hri
    exact ⟨i, c, hi, hc, h.toRequest_chunk hi hc⟩
  · rintro ⟨i, c, hi, hc, rfl⟩
    exact ⟨_, h.validIndex_iff.mpr ⟨i, c, hi, hc, rfl⟩, h.toRequest_chunk hi hc⟩

theorem from_to (hri : info.ValidIndex cs ri) :
    info.requestIndexFromRequest cs (info.requestIndexToRequest cs ri) = ri := by
  have hcount := h.count
  have hlt := hri.1
  rw [h.numChunks_eq] at hlt
  exact requestIndexFromRequest_toRequest h.chunk h.chunksPerRegularPiece_pos (by omega)

end Counted

/-- **The chunks are a partition of the data**, and both computations of a request agree on it. -/
theorem partition (h : info.Counted cs) : info.IsPartition cs where
  from_to _ hri := h.from_to hri
  to_from := by
    rintro r ⟨ri, hri, rfl⟩
    rw [h.from_to hri]
    exact ⟨hri, rfl⟩
  nonempty := by
    intro r hr
    obtain ⟨i, c, -, hc, rfl⟩ := h.isRequest_iff.mp hr
    have hchunk := h.chunk
    dsimp only [Info.chunk]
    omega
  disjoint := by
    intro r r' hr hr' k hk hk'
    obtain ⟨i, c, hi, hc, rfl⟩ := h.isRequest_iff.mp hr
    obtain ⟨i', c', hi', hc', rfl⟩ := h.isRequest_iff.mp hr'
    obtain ⟨-, hpiece, hplace⟩ := h.eq_of_asks hi hc hk
    obtain ⟨-, hpiece', hplace'⟩ := h.eq_of_asks hi' hc' hk'
    rw [← hpiece, ← hpiece', ← hplace, ← hplace']
  cover := by
    intro k
    constructor
    · intro hk
      exact ⟨_, h.chunk_asks hk⟩
    · rintro ⟨r, hr, hk⟩
      obtain ⟨i, c, hi, hc, rfl⟩ := h.isRequest_iff.mp hr
      exact (h.eq_of_asks hi hc hk).1
  found := by
    intro k hk
    exact ⟨_, h.offsetRequest_chunk hk, h.chunk_asks hk⟩

/-- Three pieces of three chunks, the last chunk of each cut short, and the last piece too. -/
theorem partition_sample : (⟨10, [13, 14], 3, by decide, by decide⟩ : Info).IsPartition 4 :=
  partition (by decide)

end Info

/-! ## The chunks that are not dirty (`undirtied-chunks-iter.go`) -/

/-- The calls of `for index := lastDirty + 1; index < stop; index++` -/
def undirtiedGap (lastDirty stop : Nat) : List Nat :=
  range' (u32 (lastDirty + 1)) (stop - u32 (lastDirty + 1))

/-- The loop of `iterBitmapUnsetInRange` over what the iterator still has. -/
def iterBitmapUnsetLoop (stop : Nat) : Nat → List Nat → List Nat
  | lastDirty, [] => undirtiedGap lastDirty stop
  | lastDirty, next :: it =>
    if stop ≤ next then undirtiedGap lastDirty stop
    else undirtiedGap lastDirty next ++ iterBitmapUnsetLoop stop next it

/-- `iterBitmapUnsetInRange`, as the list of its calls. `AdvanceIfNeeded` leaves the members from
`start` on; `lastDirty` starts below `start`, and so wraps if `start` is zero. -/
def iterBitmapUnsetInRange (it : Bitmap) (start stop : Nat) : List Nat :=
  iterBitmapUnsetLoop stop (u32 (start + 2 ^ 32 - 1)) (it.filter fun i => decide (start ≤ i)).elems

/-- `iterUndirtiedRequestIndexesInPiece`, as the list of its calls -/
def Torrent.iterUndirtiedRequestIndexesInPiece (t : Torrent) (i : Nat) : List Nat :=
  iterBitmapUnsetInRange t.dirtyChunks (t.pieceRequestIndexOffset i)
    (u32 (t.pieceRequestIndexOffset i + t.pieceNumChunks i))

variable {stop lastDirty : Nat} {it : List Nat}

theorem filter_undirtiedGap (h : ∀ i ∈ it, stop ≤ i) :
    (undirtiedGap lastDirty stop).filter (fun r => decide (r ∉ it)) =
      undirtiedGap lastDirty stop := by
  refine filter_eq_self.mpr fun r hr => decide_eq_true fun hmem => ?_
  have := h r hmem
  rw [undirtiedGap, mem_range'_1] at hr
  omega

/-- Both loops, from any `lastDirty` on: what the iterator has is in order, and above it. -/
theorem iterBitmapUnsetLoop_eq (hstop : stop < 2 ^ 32) (hit : it.Pairwise (· < ·))
    (hge : ∀ i ∈ it, u32 (lastDirty + 1) ≤ i) : iterBitmapUnsetLoop stop lastDirty it =
      (undirtiedGap lastDirty stop).filter fun r => decide (r ∉ it) := by
  induction it generalizing lastDirty with
  | nil => exact (filter_undirtiedGap fun _ hi => absurd hi not_mem_nil).symm
  | cons next it ih =>
    obtain ⟨hnext, hit⟩ := pairwise_cons.mp hit
    have hmin : ∀ i ∈ next :: it, next ≤ i := by
      intro i hi
      rcases mem_cons.mp hi with rfl | hi
      · exact le_refl _
      · exact (hnext i hi).le
    rw [iterBitmapUnsetLoop]
    split_ifs with hle
    · exact (filter_undirtiedGap fun i hi => hle.trans (hmin i hi)).symm
    · have hself := hge next mem_cons_self
      have hsucc : u32 (next + 1) = next + 1 := u32_of_lt (by omega)
      have hsplit : undirtiedGap lastDirty stop =
          undirtiedGap lastDirty next ++ next :: undirtiedGap next stop := by
        have happ := @List.range'_append_1 (u32 (lastDirty + 1)) (next - u32 (lastDirty + 1))
          (stop - (next + 1) + 1)
        rw [Nat.add_sub_cancel' hself, range'_succ] at happ
        rw [undirtiedGap, undirtiedGap, undirtiedGap, hsucc, happ]
        congr 1
        omega
      rw [hsplit, filter_append, filter_undirtiedGap hmin,
        filter_cons_of_neg (by simp), ih hit fun i hi => hsucc.le.trans (hnext i hi)]
      congr 1
      refine filter_congr fun r hr => ?_
      rw [undirtiedGap, mem_range'_1, hsucc] at hr
      rw [decide_eq_decide, mem_cons, not_or]
      exact ⟨fun h => ⟨by omega, h⟩, And.right⟩

/-- The iteration lists what `undirtiedRequestIndexes` does, also where `lastDirty` wraps. -/
theorem iterUndirtied_eq (t : Torrent) (i : Nat) :
    t.iterUndirtiedRequestIndexesInPiece i = t.undirtiedRequestIndexes i := by
  have hstart : t.pieceRequestIndexOffset i < 2 ^ 32 := by
    unfold Torrent.pieceRequestIndexOffset
    cases t.info with
    | none => exact Nat.two_pow_pos 32
    | some info => exact u32_lt _
  have hwrap : u32 (u32 (t.pieceRequestIndexOffset i + 2 ^ 32 - 1) + 1) =
      t.pieceRequestIndexOffset i := by
    unfold u32
    omega
  rw [Torrent.iterUndirtiedRequestIndexesInPiece, iterBitmapUnsetInRange,
    iterBitmapUnsetLoop_eq (u32_lt _) (Bitmap.sorted _) fun r hr =>
      hwrap.le.trans (decide_eq_true_iff.mp (Bitmap.mem_filter.mp hr).2), undirtiedGap, hwrap]
  refine filter_congr fun r hr => ?_
  rw [decide_eq_decide, Bitmap.mem_elems, Bitmap.mem_filter, decide_eq_true_iff,
    and_iff_left (mem_range'_1.mp hr).1]

/-- **The chunks that are not dirty**: the iteration gives their indexes, in ascending order. -/
theorem undirtied_exact (t : Torrent) {info : Info} (hinfo : t.info = some info)
    (h : info.Counted t.cfg.chunkSize) {i : Nat} (hi : i < info.numPieces) :
    (t.iterUndirtiedRequestIndexesInPiece i).Pairwise (· < ·) ∧
      ∀ r, r ∈ t.iterUndirtiedRequestIndexesInPiece i ↔
        (info.ValidIndex t.cfg.chunkSize r ∧
          info.pieceIndexOfRequestIndex t.cfg.chunkSize r = i) ∧ r ∉ t.dirtyChunks := by
  have hstop := h.piece_count_le hi
  have hcount := h.count
  have hi32 : i ≤ i * info.chunksPerRegularPiece t.cfg.chunkSize :=
    Nat.le_mul_of_pos_right i h.chunksPerRegularPiece_pos
  have hoff : t.pieceRequestIndexOffset i = i * info.chunksPerRegularPiece t.cfg.chunkSize := by
    rw [Torrent.pieceRequestIndexOffset, hinfo, map_some, getD_some,
      Info.pieceRequestIndexOffset, u32_of_lt (by omega : i < 2 ^ 32), u32_of_lt (by omega)]
  have hnum : t.pieceNumChunks i = info.pieceNumChunks t.cfg.chunkSize i := by
    rw [Torrent.pieceNumChunks, hinfo]
    rfl
  rw [iterUndirtied_eq, Torrent.undirtiedRequestIndexes, hoff, hnum]
  refine ⟨(pairwise_lt_range' ..).filter _, fun r => ?_⟩
  rw [mem_filter, mem_range'_1, decide_eq_true_iff, u32_of_lt (by omega),
    Nat.add_sub_cancel_left, h.validIndex_iff]
  refine and_congr_left fun _ => ⟨?_, ?_⟩
  · rintro ⟨hlo, hhi⟩
    obtain ⟨c, rfl⟩ := Nat.exists_eq_add_of_le hlo
    have hc := (h.lt_pieceNumChunks_iff hi).mp (Nat.lt_of_add_lt_add_left hhi)
    exact ⟨⟨i, c, hi, hc, rfl⟩, h.div_index (h.chunk_lt hi hc)⟩
  · rintro ⟨⟨j, c, hj, hc, rfl⟩, hpiece⟩
    obtain rfl : j = i := (h.div_index (h.chunk_lt hj hc)).symm.trans hpiece
    exact ⟨Nat.le_add_right _ _, Nat.add_lt_add_left ((h.lt_pieceNumChunks_iff hi).mpr hc) _⟩

/-- In the first piece, between two dirty chunks. -/
theorem undirtied_exact_first :
    1 ∈ { Torrent.init smallConfig emptyStorage with
      info := some ⟨10, [13, 14], 3, by decide, by decide⟩
      dirtyChunks := Bitmap.ofList [0, 2] }.iterUndirtiedRequestIndexesInPiece 0 :=
  ((undirtied_exact _ rfl (by decide) (by decide)).2 1).mpr
    ⟨⟨⟨by decide, by decide⟩, by decide⟩, by decide⟩

end ReliableBT
