import ReliableBT.Lib.Bitmap

/-!
# Piece and chunk geometry (`torrent.go`, `piece.go`, `misc.go`, `file.go`, `metainfo/piece.go`)

The torrent's data is cut into pieces and each piece into chunks. A chunk has a number of its own,
its *request index*: the number of its piece times `chunksPerRegularPiece`, plus its place in the
piece. Piece lengths, chunk sizes and request indexes are `uint32` in the source, and the model
keeps their wrap-around: `u32` is the conversion. Piece indexes (`i`) and request indexes (`ri`)
are natural numbers.

An `Info` is one that `validateInfo` accepts. Its lengths are natural numbers and are added up as
such, which is what the source does if no length is negative and `totalLength + pieceLength - 1` is
below `2 ^ 63`. An info beyond that is left out, also one that `validateInfo` accepts because its
`int64` sums wrap around. A zero piece length is modelled: `validateInfo` accepts it together with
any number of pieces as long as there is no data.

`Info.Regular` says that none of the 32-bit computations wraps. Under it the source's formulas mean
what they say; without it chunks of different pieces can share a request index.

* `requestIndexFromRequest_toRequest`: a request index is recovered from its request, regular or
  not.
* `pieceLen_le_metaPieceLength`: `Torrent.pieceLength` never exceeds the piece's length in the
  metainfo.
* `Regular.requestIndex`: in a regular torrent a chunk's index gives its piece and its place there.
* `pieceFiles_window`: a piece's files are among those whose piece range has the piece in it.
-/

open Nat List Option

namespace ReliableBT

/-- Conversion to `uint32`. -/
def u32 (n : Nat) : Nat := n % 2 ^ 32

theorem u32_lt (n : Nat) : u32 n < 2 ^ 32 := mod_lt n (by decide)

theorem u32_le (n : Nat) : u32 n ≤ n := mod_le n _

theorem u32_of_lt {n : Nat} (h : n < 2 ^ 32) : u32 n = n := mod_eq_of_lt h

/-- Wrap-around of `int64`. -/
def i64 (n : Int) : Int := n.bmod (2 ^ 64)

/-- A division rounded up, as the source computes it. -/
theorem lt_roundUp_iff {k n w : Nat} (hw : 0 < w) : k < (n + w - 1) / w ↔ k * w < n := by
  rw [lt_iff_add_one_le, le_div_iff_mul_le hw, succ_mul]
  omega

theorem div_lt_roundUp {b n w : Nat} (hw : 0 < w) (hb : b < n) : b / w < (n + w - 1) / w :=
  (lt_roundUp_iff hw).mpr ((div_mul_le_self b w).trans_lt hb)

/-- `validateInfo`, on what it looks at. -/
def validateInfo (pieceLength totalLength numPieces : Nat) : Bool :=
  if pieceLength = 0 then decide (totalLength = 0)
  else decide ((totalLength + pieceLength - 1) / pieceLength = numPieces)

/-- `metainfo.Info`: the piece length, the lengths of `UpvertedFiles` (never empty) and the number
of piece hashes. Exact for lengths that are not negative and `totalLength + pieceLength - 1` below
`2 ^ 63`. -/
structure Info where
  pieceLength : Nat
  fileLengths : List Nat
  numPieces : Nat
  files_ne : fileLengths ≠ []
  valid : validateInfo pieceLength fileLengths.sum numPieces = true
  deriving DecidableEq

/-- `ChunkSpec` with the piece: `Request`. -/
structure Request where
  index : Nat
  begin : Nat
  length : Nat
  deriving Repr, DecidableEq

instance : LawfulBEq (Nat × Request) := inferInstance

namespace Info

variable (info : Info) (cs : Nat)

/-- `TotalLength`, the torrent's `length`. -/
def totalLength : Nat := info.fileLengths.sum

/-- `metainfo.Piece.Length` -/
def metaPieceLength (i : Nat) : Nat :=
  if i + 1 = info.numPieces then info.totalLength - i * info.pieceLength else info.pieceLength

/-- `Torrent.pieceLength`, for the chunk size `cs` of the torrent like all that follow. -/
def pieceLen (i : Nat) : Nat :=
  if info.pieceLength = 0 then 0
  else if i + 1 = info.numPieces ∧ u32 (info.totalLength % info.pieceLength) ≠ 0 then
    u32 (info.totalLength % info.pieceLength)
  else u32 info.pieceLength

/-- `chunksPerRegularPiece` -/
def chunksPerRegularPiece : Nat := u32 (u32 info.pieceLength + cs - 1) / cs

/-- `pieceNumChunks` -/
def pieceNumChunks (i : Nat) : Nat := u32 (info.pieceLen i + cs - 1) / cs

/-- `pieceRequestIndexOffset` -/
def pieceRequestIndexOffset (i : Nat) : Nat :=
  u32 (u32 i * info.chunksPerRegularPiece cs)

/-- `requestIndexFromRequest` -/
def requestIndexFromRequest (r : Request) : Nat :=
  u32 (info.pieceRequestIndexOffset cs r.index + r.begin / cs)

/-- `pieceIndexOfRequestIndex` -/
def pieceIndexOfRequestIndex (ri : Nat) : Nat :=
  ri / info.chunksPerRegularPiece cs

end Info

/-- `chunkIndexSpec`: begin and length. -/
def chunkIndexSpec (index pieceLength chunkSize : Nat) : Nat × Nat :=
  let begin := u32 (index * chunkSize)
  if u32 (begin + chunkSize) > pieceLength then (begin, u32 (2 ^ 32 + pieceLength - begin))
  else (begin, chunkSize)

/-- `chunkOverflowsPiece`, in the 32-bit arithmetic of its arguments. -/
def chunkOverflowsPiece (begin length pieceLength : Nat) : Bool :=
  decide (u32 (begin + length) > pieceLength) || decide (begin > 2 ^ 32 - 1 - length)

namespace Info

variable (info : Info) (cs : Nat)

/-- `requestIndexToRequest` -/
def requestIndexToRequest (ri : Nat) : Request :=
  let index := info.pieceIndexOfRequestIndex cs ri
  let spec := chunkIndexSpec (ri % info.chunksPerRegularPiece cs) (info.pieceLen index) cs
  ⟨u32 index, spec.1, spec.2⟩

/-- The bytes of the chunk `ri`, as positions in its piece: from begin on, up to the length of the
piece. -/
def chunkBytes (ri : Nat) (k : Nat) : Prop :=
  let begin := ri % info.chunksPerRegularPiece cs * cs
  begin ≤ k ∧ k < begin + cs ∧ k < info.pieceLen (info.pieceIndexOfRequestIndex cs ri)

instance (ri k : Nat) : Decidable (info.chunkBytes cs ri k) :=
  inferInstanceAs (Decidable (_ ∧ _ ∧ _))

/-! ## Files -/

/-- The offset of the `k`-th file: `File.offset`. -/
def fileOffset (k : Nat) : Nat := (info.fileLengths.take k).sum

/-- `File.offset + File.length` -/
def fileEnd (k : Nat) : Nat := (info.fileLengths.take (k + 1)).sum

/-- `pieceFirstFileIndex`: the first file that ends behind the offset, `0` if there is none. -/
def pieceFirstFileIndex (pieceOffset : Nat) : Nat :=
  ((range info.fileLengths.length).find? fun k => decide (info.fileEnd k > pieceOffset)).getD 0

/-- `pieceEndFileIndex`: behind the first file that reaches the offset, `0` if there is none. -/
def pieceEndFileIndex (pieceEndOffset : Nat) : Nat :=
  (((range info.fileLengths.length).find? fun k =>
    decide (info.fileEnd k ≥ pieceEndOffset)).map (· + 1)).getD 0

/-- The file indexes of `Piece.files`, as `makePieces` cuts them. -/
def pieceFiles (i : Nat) : List Nat :=
  (range info.fileLengths.length).filter fun k =>
    decide (info.pieceFirstFileIndex (i * info.pieceLength) ≤ k) &&
      decide (k < info.pieceEndFileIndex (i * info.pieceLength + info.pieceLen i))

/-- `makePieces` slices no piece's files out of range. -/
def slicesInRange : Bool :=
  (range info.numPieces).all fun i =>
    decide (info.pieceFirstFileIndex (i * info.pieceLength) ≤
      info.pieceEndFileIndex (i * info.pieceLength + info.pieceLen i))

/-- `File.BeginPieceIndex` -/
def beginPieceIndex (k : Nat) : Nat :=
  if info.pieceLength = 0 then 0 else info.fileOffset k / info.pieceLength

/-- `File.EndPieceIndex` -/
def endPieceIndex (k : Nat) : Nat :=
  if info.pieceLength = 0 then 0
  else (info.fileEnd k + info.pieceLength - 1) / info.pieceLength

/-- No 32-bit computation about the torrent's chunks wraps. -/
def Regular : Prop :=
  info.pieceLength + cs ≤ 2 ^ 32 ∧ info.numPieces * info.chunksPerRegularPiece cs < 2 ^ 32

instance : Decidable (info.Regular cs) := inferInstanceAs (Decidable (_ ∧ _))

end Info

/-! ## Chunks and their indexes -/

namespace Info

variable {info : Info} {cs : Nat}

theorem chunksPerRegularPiece_mul_lt : info.chunksPerRegularPiece cs * cs < 2 ^ 32 :=
  lt_of_le_of_lt (div_mul_le_self _ _) (u32_lt _)

variable {c ri i k o b : Nat}

theorem begin_lt (h : c < info.chunksPerRegularPiece cs) : c * cs < 2 ^ 32 :=
  lt_of_le_of_lt (mul_le_mul_right cs (le_of_lt h)) chunksPerRegularPiece_mul_lt

theorem requestIndexToRequest_begin (hcpp : 0 < info.chunksPerRegularPiece cs) :
    (info.requestIndexToRequest cs ri).begin = ri % info.chunksPerRegularPiece cs * cs := by
  have hb : u32 (ri % info.chunksPerRegularPiece cs * cs) =
      ri % info.chunksPerRegularPiece cs * cs := u32_of_lt (begin_lt (mod_lt _ hcpp))
  unfold requestIndexToRequest chunkIndexSpec
  simp only
  split
  · exact hb
  · exact hb

/-- The request of an index has that index, whether or not the torrent is regular. -/
theorem requestIndexFromRequest_toRequest (hcs : 0 < cs) (hcpp : 0 < info.chunksPerRegularPiece cs)
    (hri : ri < 2 ^ 32) :
    info.requestIndexFromRequest cs (info.requestIndexToRequest cs ri) = ri := by
  have hidx : (info.requestIndexToRequest cs ri).index =
      u32 (ri / info.chunksPerRegularPiece cs) := rfl
  have hdiv : ri / info.chunksPerRegularPiece cs < 2 ^ 32 :=
    lt_of_le_of_lt (div_le_self _ _) hri
  have hmul : ri / info.chunksPerRegularPiece cs * info.chunksPerRegularPiece cs < 2 ^ 32 :=
    lt_of_le_of_lt (div_mul_le_self _ _) hri
  rw [requestIndexFromRequest, pieceRequestIndexOffset, hidx, requestIndexToRequest_begin hcpp,
    Nat.mul_div_cancel _ hcs, u32_of_lt hdiv, u32_of_lt hdiv, u32_of_lt hmul,
    div_add_mod' ri, u32_of_lt hri]

/-! ## Lengths -/

theorem numPieces_eq (h : info.pieceLength ≠ 0) :
    (info.totalLength + info.pieceLength - 1) / info.pieceLength = info.numPieces := by
  have hv := info.valid
  rw [validateInfo, if_neg h, decide_eq_true_eq] at hv
  exact hv

theorem pieceLen_le_pieceLength (i : Nat) : info.pieceLen i ≤ info.pieceLength := by
  unfold pieceLen
  split_ifs with h0 h1
  · exact zero_le _
  · have hmod : info.totalLength % info.pieceLength < info.pieceLength :=
      mod_lt _ (pos_of_ne_zero h0)
    have := u32_le (info.totalLength % info.pieceLength)
    omega
  · exact u32_le _

theorem last_piece (h : info.pieceLength ≠ 0) (hi : i + 1 = info.numPieces) :
    i * info.pieceLength < info.totalLength ∧ info.totalLength ≤ (i + 1) * info.pieceLength := by
  have hdm := div_add_mod' (info.totalLength + info.pieceLength - 1) info.pieceLength
  have hmod := mod_lt (info.totalLength + info.pieceLength - 1) (pos_of_ne_zero h)
  rw [numPieces_eq h, ← hi, add_mul, one_mul] at hdm
  rw [add_mul, one_mul]
  omega

theorem pieceLen_le_metaPieceLength (i : Nat) : info.pieceLen i ≤ info.metaPieceLength i := by
  by_cases h0 : info.pieceLength = 0
  · rw [pieceLen, if_pos h0]
    exact zero_le _
  by_cases hi : i + 1 = info.numPieces
  · obtain ⟨hlo, hhi⟩ := last_piece h0 hi
    rw [metaPieceLength, if_pos hi, pieceLen, if_neg h0]
    by_cases hfull : info.totalLength = (i + 1) * info.pieceLength
    · have hmod : info.totalLength % info.pieceLength = 0 := by
        rw [hfull]
        exact mul_mod_left _ _
      rw [if_neg (by simp [hmod, u32]), hfull, Nat.add_mul, Nat.one_mul, Nat.add_sub_cancel_left]
      exact u32_le _
    · have hmod : info.totalLength % info.pieceLength =
          info.totalLength - i * info.pieceLength := by
        have hsplit : info.totalLength =
            (info.totalLength - i * info.pieceLength) + i * info.pieceLength := by omega
        rw [add_mul, one_mul] at hhi hfull
        rw [hsplit, Nat.add_mul_mod_self_right, Nat.mod_eq_of_lt (by omega), Nat.add_sub_cancel]
      split_ifs with hne
      · rw [hmod]
        exact u32_le _
      · -- the remainder is a nonzero multiple of `2 ^ 32`, and so above any `uint32`
        have hz : u32 (info.totalLength % info.pieceLength) = 0 := by
          by_contra hz
          exact hne ⟨hi, hz⟩
        rw [hmod] at hz
        have hlt := u32_lt info.pieceLength
        have hpos : 0 < info.totalLength - i * info.pieceLength := by omega
        have hle : 2 ^ 32 ≤ info.totalLength - i * info.pieceLength :=
          le_of_dvd hpos (dvd_of_mod_eq_zero hz)
        omega
  · rw [metaPieceLength, if_neg hi]
    exact pieceLen_le_pieceLength i

/-! ## Files of a piece -/

theorem fileEnd_mono {j : Nat} (h : j ≤ k) : info.fileEnd j ≤ info.fileEnd k := by
  unfold fileEnd
  have hsplit := sum_take_add_sum_drop (info.fileLengths.take (k + 1)) (j + 1)
  rw [take_take, min_eq_left (succ_le_succ h)] at hsplit
  exact le.intro hsplit

theorem piece_start (h : info.pieceLength ≠ 0) (hi : i < info.numPieces) :
    i * info.pieceLength < info.totalLength := by
  rwa [← numPieces_eq h, lt_roundUp_iff (pos_of_ne_zero h)] at hi

theorem lt_fileEnd_of_first (ho : o < info.totalLength) (hk : info.pieceFirstFileIndex o ≤ k) :
    o < info.fileEnd k := by
  unfold pieceFirstFileIndex at hk
  cases hfind : (range info.fileLengths.length).find? fun k =>
      decide (info.fileEnd k > o) with
  | none =>
    -- the last file ends with the data
    have hpos : 0 < info.fileLengths.length := length_pos_iff.mpr info.files_ne
    have hlast := find?_range_eq_none.mp hfind (info.fileLengths.length - 1) (by omega)
    have hend : info.fileEnd (info.fileLengths.length - 1) = info.totalLength := by
      rw [fileEnd, Nat.sub_add_cancel hpos, take_length, totalLength]
    simp [hend] at hlast
    omega
  | some f =>
    rw [hfind, getD_some] at hk
    have hf := (find?_range_eq_some.mp hfind).1
    exact lt_of_lt_of_le (of_decide_eq_true hf) (fileEnd_mono hk)

theorem fileOffset_of_end (hk : k < info.pieceEndFileIndex o) :
    info.fileOffset k = 0 ∨ info.fileOffset k < o := by
  unfold pieceEndFileIndex at hk
  cases hfind : (range info.fileLengths.length).find? fun k =>
      decide (info.fileEnd k ≥ o) with
  | none =>
    rw [hfind] at hk
    exact absurd hk (not_lt_zero k)
  | some e =>
    rw [hfind, map_some, getD_some] at hk
    cases k with
    | zero => exact .inl rfl
    | succ k =>
      -- the file before is not the first that reaches the offset
      have hbefore := (find?_range_eq_some.mp hfind).2.2 k (by omega)
      exact .inr (by simpa [fileOffset, fileEnd] using hbefore)

/-- **The files of a piece** have the piece in their range of pieces. -/
theorem pieceFiles_window (h : info.pieceLength ≠ 0) (hi : i < info.numPieces)
    (hk : k ∈ info.pieceFiles i) : info.beginPieceIndex k ≤ i ∧ i < info.endPieceIndex k := by
  have hpos := pos_of_ne_zero h
  rw [pieceFiles, mem_filter, Bool.and_eq_true, decide_eq_true_eq, decide_eq_true_eq] at hk
  obtain ⟨-, hfirst, hend⟩ := hk
  have hstart := lt_fileEnd_of_first (piece_start h hi) hfirst
  have hle : info.pieceLen i ≤ info.pieceLength := pieceLen_le_pieceLength i
  rw [beginPieceIndex, endPieceIndex, if_neg h, if_neg h]
  refine ⟨?_, ?_⟩
  · rw [← Nat.lt_succ_iff, Nat.div_lt_iff_lt_mul hpos, Nat.succ_mul]
    rcases fileOffset_of_end hend with hzero | hlt
    · omega
    · omega
  · exact (lt_roundUp_iff hpos).mpr hstart

/-! ## Regular torrents -/

section

variable (h : info.Regular cs)
include h

theorem Regular.chunksPerRegularPiece_eq (hcs : 0 < cs) :
    info.chunksPerRegularPiece cs = (info.pieceLength + cs - 1) / cs := by
  have hfit := h.1
  rw [chunksPerRegularPiece, u32_of_lt (by omega : info.pieceLength < 2 ^ 32),
    u32_of_lt (by omega)]

theorem Regular.chunk_lt (hcs : 0 < cs) (hb : b < info.pieceLength) :
    b / cs < info.chunksPerRegularPiece cs := by
  rw [h.chunksPerRegularPiece_eq hcs]
  exact div_lt_roundUp hcs hb

theorem Regular.offset_eq (hi : i ≤ info.numPieces) :
    info.pieceRequestIndexOffset cs i = i * info.chunksPerRegularPiece cs := by
  have hmul : i * info.chunksPerRegularPiece cs < 2 ^ 32 :=
    lt_of_le_of_lt (mul_le_mul_right _ hi) h.2
  unfold pieceRequestIndexOffset
  rcases Nat.eq_zero_or_pos (info.chunksPerRegularPiece cs) with hz | hpos
  · rw [hz, mul_zero, mul_zero]
    rfl
  · have hlt : i < 2 ^ 32 := Nat.lt_of_le_of_lt (Nat.le_mul_of_pos_right i hpos) hmul
    rw [u32_of_lt hlt, u32_of_lt hmul]

theorem Regular.chunkIndex (hi : i < info.numPieces)
    (hc : c < info.chunksPerRegularPiece cs) :
    u32 (info.pieceRequestIndexOffset cs i + c) = i * info.chunksPerRegularPiece cs + c := by
  have hle : (i + 1) * info.chunksPerRegularPiece cs ≤
      info.numPieces * info.chunksPerRegularPiece cs := mul_le_mul_right _ hi
  have hreg := h.2
  rw [add_mul, one_mul] at hle
  rw [h.offset_eq (le_of_lt hi), u32_of_lt (by omega)]

theorem Regular.requestIndex (hcs : 0 < cs) (hi : i < info.numPieces)
    (hb : b < info.pieceLen i) :
    u32 (info.pieceRequestIndexOffset cs i + b / cs) = i * info.chunksPerRegularPiece cs + b / cs :=
  h.chunkIndex hi (h.chunk_lt hcs (lt_of_lt_of_le hb (pieceLen_le_pieceLength i)))

theorem Regular.piece_of_chunkIndex (hi : i < info.numPieces)
    (hc : c < info.chunksPerRegularPiece cs) :
    u32 (info.pieceRequestIndexOffset cs i + c) / info.chunksPerRegularPiece cs = i := by
  rw [h.chunkIndex hi hc, add_comm, add_mul_div_right _ _ (zero_lt_of_lt hc),
    div_eq_of_lt hc, zero_add]

end

end Info

end ReliableBT
