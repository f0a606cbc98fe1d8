import ReliableBT.Torrent.Partition

/-!
# Files and their pieces (`torrent.go`, `file.go`)

`makePieces` gives each piece the files between two that it searches for, the first that ends behind
the start of the piece and the first that reaches its end. `BeginPieceIndex` and `EndPieceIndex`
give each file its pieces, by division. The two agree, except that an empty file need not be among
the files of the piece it is in, and for two overflows. The length of a piece is a `uint32`: a piece
length of `2 ^ 32` makes the pieces empty, and the searches cross. And `EndPieceIndex` rounds up
with an `int64` sum that can be negative. Lengths and their total are `int64`s that are not
negative, so the other sums do not overflow.

* `mem_pieceFiles_iff`: the files of a piece, as an interval of bytes.
* `files_and_pieces_agree`: the agreement, exactly if the sum does not overflow and no file begins
  behind the end that the `uint32` length gives its piece.
* `files_sliced_backwards`: what goes wrong otherwise.
-/

open List Nat

namespace ReliableBT

namespace Info

variable {info : Info} {i k o : Nat}

theorem fileEnd_last : info.fileEnd (info.fileLengths.length - 1) = info.totalLength := by
  have hpos : 0 < info.fileLengths.length := length_pos_iff.mpr info.files_ne
  rw [fileEnd, Nat.sub_add_cancel hpos, take_length, totalLength]

theorem fileOffset_le_fileEnd (k : Nat) : info.fileOffset k ≤ info.fileEnd k := by
  cases k with
  | zero => exact zero_le _
  | succ k => exact fileEnd_mono (le_succ k)

theorem pieceFirstFileIndex_le_iff (ho : o < info.totalLength) :
    info.pieceFirstFileIndex o ≤ k ↔ o < info.fileEnd k := by
  refine ⟨lt_fileEnd_of_first ho, fun hk => ?_⟩
  unfold pieceFirstFileIndex
  cases hfind : (range info.fileLengths.length).find? fun k =>
      decide (info.fileEnd k > o) with
  | none => exact zero_le k
  | some f =>
    have hbefore := (find?_range_eq_some.mp hfind).2.2 k
    simpa [hk] using hbefore

theorem lt_pieceEndFileIndex_iff (ho : o ≤ info.totalLength) :
    k < info.pieceEndFileIndex o ↔ info.fileOffset k < o ∨ k = 0 := by
  have hpos : 0 < info.fileLengths.length := length_pos_iff.mpr info.files_ne
  unfold pieceEndFileIndex
  cases hfind : (range info.fileLengths.length).find? fun k =>
      decide (info.fileEnd k ≥ o) with
  | none =>
    have hlast := find?_range_eq_none.mp hfind (info.fileLengths.length - 1) (by omega)
    simp [fileEnd_last] at hlast
    omega
  | some e =>
    rw [Option.map_some, Option.getD_some, Nat.lt_succ_iff]
    obtain ⟨hend, -, hbefore⟩ := find?_range_eq_some.mp hfind
    have hend := of_decide_eq_true hend
    cases k with
    | zero => simp
    | succ k =>
      refine ⟨fun hk => .inl (by simpa [fileOffset, fileEnd] using hbefore k hk), fun hk => ?_⟩
      by_contra hlt
      have hmono : info.fileEnd e ≤ info.fileOffset (k + 1) := fileEnd_mono (by omega)
      omega

variable (info) in
/-- `File.EndPieceIndex`, with the `int64` sum of the source. -/
def endPieceIndex64 (k : Nat) : ℤ :=
  (i64 (info.fileEnd k + info.pieceLength - 1)).tdiv info.pieceLength

variable (info) in
/-- The piece is one of the file's pieces. -/
def InWindow (k i : Nat) : Prop := info.beginPieceIndex k ≤ i ∧ (i : ℤ) < info.endPieceIndex64 k

variable (info) in
/-- A file with bytes, not the first, begins in the piece, and not before the end that the piece has
with its `uint32` length. -/
def BeginsBehind (k i : Nat) : Prop :=
  k ≠ 0 ∧ info.fileOffset k < info.fileEnd k ∧
    i * info.pieceLength + info.pieceLen i ≤ info.fileOffset k ∧
    info.fileOffset k < i * info.pieceLength + info.pieceLength

instance (k i : Nat) : Decidable (info.BeginsBehind k i) :=
  inferInstanceAs (Decidable (_ ∧ _ ∧ _ ∧ _))

section

variable (hpl : info.pieceLength ≠ 0) (hi : i < info.numPieces)
include hpl hi

theorem piece_bounds : i * info.pieceLength < info.totalLength ∧
    i * info.pieceLength + info.metaPieceLength i =
      min (i * info.pieceLength + info.pieceLength) info.totalLength ∧
    info.pieceLen i ≤ info.metaPieceLength i := by
  have hend := piece_end hpl hi
  rw [succ_mul] at hend
  exact ⟨piece_start hpl hi, by omega, pieceLen_le_metaPieceLength i⟩

theorem mem_pieceFiles_iff : k ∈ info.pieceFiles i ↔ k < info.fileLengths.length ∧
    i * info.pieceLength < info.fileEnd k ∧
      (info.fileOffset k < i * info.pieceLength + info.pieceLen i ∨ k = 0) := by
  obtain ⟨hstart, hend, hle⟩ := piece_bounds hpl hi
  rw [pieceFiles, mem_filter, mem_range, Bool.and_eq_true, decide_eq_true_eq,
    decide_eq_true_eq, pieceFirstFileIndex_le_iff hstart, lt_pieceEndFileIndex_iff (by omega)]

theorem slice_in_range (hfree : ∀ k < info.fileLengths.length, ¬ info.BeginsBehind k i) :
    info.pieceFirstFileIndex (i * info.pieceLength) ≤
      info.pieceEndFileIndex (i * info.pieceLength + info.pieceLen i) := by
  obtain ⟨hstart, hend, hle⟩ := piece_bounds hpl hi
  cases hfirst : info.pieceFirstFileIndex (i * info.pieceLength) with
  | zero => exact zero_le _
  | succ f =>
    have hafter := lt_fileEnd_of_first hstart hfirst.le
    have hbefore : info.fileEnd f ≤ i * info.pieceLength := by
      by_contra hlt
      have := (pieceFirstFileIndex_le_iff hstart).mpr (not_le.mp hlt)
      omega
    have hf : f + 1 < info.fileLengths.length := by
      by_contra hge
      have : info.fileEnd (info.fileLengths.length - 1) ≤ info.fileEnd f := fileEnd_mono (by omega)
      rw [fileEnd_last] at this
      omega
    rw [succ_le_iff, lt_pieceEndFileIndex_iff (by omega)]
    -- otherwise the piece is empty, and the file that it begins with is behind it
    by_contra hno
    have hoffset : info.fileOffset (f + 1) = info.fileEnd f := rfl
    have := info.fileOffset_le_fileEnd f
    exact hfree (f + 1) hf ⟨succ_ne_zero f, by omega, by omega, by omega⟩

end

theorem fileEnd_le_totalLength (hk : k < info.fileLengths.length) :
    info.fileEnd k ≤ info.totalLength := by
  rw [← fileEnd_last]
  exact fileEnd_mono (by omega)

theorem window_iff (hpl : info.pieceLength ≠ 0) (hk : k < info.fileLengths.length)
    (hsum : info.totalLength + info.pieceLength - 1 < 2 ^ 63) :
    info.InWindow k i ↔ info.fileOffset k < i * info.pieceLength + info.pieceLength ∧
      i * info.pieceLength < info.fileEnd k := by
  have hpos := Nat.pos_of_ne_zero hpl
  have hle := fileEnd_le_totalLength hk
  have hcast : (info.fileEnd k + info.pieceLength - 1 : ℤ) =
      (info.fileEnd k + info.pieceLength - 1 : ℕ) := by omega
  have hend : info.endPieceIndex64 k = info.endPieceIndex k := by
    rw [endPieceIndex64, endPieceIndex, if_neg hpl, hcast, i64,
      Int.bmod_eq_of_le (by omega) (by omega)]
    rfl
  rw [InWindow, hend, Nat.cast_lt, beginPieceIndex, endPieceIndex, if_neg hpl, if_neg hpl,
    lt_roundUp_iff hpos, ← Nat.lt_succ_iff, Nat.div_lt_iff_lt_mul hpos, Nat.succ_mul]

theorem last_byte (hpl : info.pieceLength ≠ 0) (h0 : 0 < info.totalLength) :
    ∃ i < info.numPieces, ∃ k < info.fileLengths.length, info.fileOffset k < info.fileEnd k ∧
      info.fileEnd k = info.totalLength ∧ i * info.pieceLength < info.totalLength ∧
      i * info.pieceLength + info.metaPieceLength i = info.totalLength := by
  have hpos : 0 < info.numPieces := by
    rw [← numPieces_eq hpl]
    exact Nat.div_pos (by omega) (Nat.pos_of_ne_zero hpl)
  have hn : info.numPieces - 1 + 1 = info.numPieces := Nat.sub_add_cancel hpos
  obtain ⟨hstart, hend⟩ := last_piece hpl hn
  have hend' := (piece_bounds hpl (show info.numPieces - 1 < info.numPieces by omega)).2.1
  rw [succ_mul] at hend
  set k := info.pieceFirstFileIndex (info.totalLength - 1)
  have hlast := lt_fileEnd_of_first (by omega) (le_refl k)
  have hk : k < info.fileLengths.length := by
    have := (pieceFirstFileIndex_le_iff (o := info.totalLength - 1) (by omega)).mpr
      (show _ < info.fileEnd (info.fileLengths.length - 1) by rw [fileEnd_last]; omega)
    have := length_pos_iff.mpr info.files_ne
    omega
  have hle := fileEnd_le_totalLength hk
  refine ⟨_, by omega, k, hk, ?_, by omega, hstart, by omega⟩
  -- the file before it ends before the last byte
  cases hcase : k with
  | zero => exact lt_of_le_of_lt (zero_le _) (hcase ▸ hlast)
  | succ j =>
    have hfirst := (pieceFirstFileIndex_le_iff (k := j) (by omega)).not.mp
      (show ¬ k ≤ j by omega)
    have hoffset : info.fileOffset (j + 1) = info.fileEnd j := rfl
    rw [hcase] at hlast
    omega

end Info

/-- The two maps agree: nothing is sliced out of range, a file with bytes is one of the piece's
files if and only if the piece is one of the file's pieces, that is, if they share a byte, and the
pieces of any file have it among theirs. -/
def Info.FilesAgree (info : Info) : Prop :=
  info.slicesInRange = true ∧
  ∀ i < info.numPieces, ∀ k < info.fileLengths.length,
    (info.fileOffset k < info.fileEnd k →
      (k ∈ info.pieceFiles i ↔ info.InWindow k i) ∧
      (info.InWindow k i ↔ ∃ b, info.fileOffset k ≤ b ∧ b < info.fileEnd k ∧
        i * info.pieceLength ≤ b ∧ b < i * info.pieceLength + info.metaPieceLength i)) ∧
    (k ∈ info.pieceFiles i → info.InWindow k i)

/-- **Files and pieces agree** exactly if the sum of `EndPieceIndex` does not overflow, and no file
begins behind the end that its piece has with a `uint32` length. -/
theorem files_and_pieces_agree (info : Info) (hpl : info.pieceLength ≠ 0)
    (hlt : info.pieceLength < 2 ^ 63) (h0 : 0 < info.totalLength)
    (htotal : info.totalLength < 2 ^ 63) :
    info.FilesAgree ↔ info.totalLength + info.pieceLength - 1 < 2 ^ 63 ∧
      ∀ i < info.numPieces, ∀ k < info.fileLengths.length, ¬ info.BeginsBehind k i := by
  constructor
  · rintro ⟨-, hagree⟩
    have hsum : info.totalLength + info.pieceLength - 1 < 2 ^ 63 := by
      by_contra hover
      obtain ⟨i, hi, k, hk, hne, hend, hstart, hlast⟩ := Info.last_byte hpl h0
      have hwindow := ((hagree i hi k hk).1 hne).2.mpr
        ⟨info.totalLength - 1, by omega, by omega, by omega, by omega⟩
      have hneg : i64 (info.fileEnd k + info.pieceLength - 1) < 0 := by
        rw [i64, ← Int.sub_bmod_right, Int.bmod_eq_of_le (by omega) (by omega)]
        omega
      have hnonneg : 0 ≤ (-i64 (info.fileEnd k + info.pieceLength - 1)).tdiv info.pieceLength :=
        Int.tdiv_nonneg (by omega) (Int.natCast_nonneg _)
      have hlt := hwindow.2
      rw [Int.neg_tdiv] at hnonneg
      unfold Info.endPieceIndex64 at hlt
      omega
    refine ⟨hsum, fun i hi k hk hbehind => ?_⟩
    obtain ⟨hzero, hne, hend, hbegin⟩ := hbehind
    have hwindow := (Info.window_iff hpl hk hsum).mpr ⟨hbegin, by omega⟩
    have hmem := ((hagree i hi k hk).1 hne).1.mpr hwindow
    rw [Info.mem_pieceFiles_iff hpl hi] at hmem
    omega
  · rintro ⟨hsum, hfree⟩
    refine ⟨all_eq_true.mpr fun i hi => decide_eq_true ?_, fun i hi k hk => ?_⟩
    · exact Info.slice_in_range hpl (mem_range.mp hi) (hfree i (mem_range.mp hi))
    obtain ⟨hstart, hend, hle⟩ := Info.piece_bounds hpl hi
    have hlast := Info.fileEnd_le_totalLength hk
    have hbehind := hfree i hi k hk
    unfold Info.BeginsBehind at hbehind
    rw [Info.mem_pieceFiles_iff hpl hi, Info.window_iff hpl hk hsum]
    have hfirst : k = 0 → info.fileOffset k = 0 := by
      rintro rfl
      rfl
    refine ⟨fun hne => ⟨by omega, fun h => ?_, ?_⟩, by omega⟩
    · exact ⟨max (info.fileOffset k) (i * info.pieceLength), by omega, by omega, by omega,
        by omega⟩
    · rintro ⟨b, hb⟩
      omega

/-- Three files, the one in the middle empty, in pieces of four bytes. -/
theorem files_and_pieces_agree_threeFiles :
    (⟨4, [4, 0, 3], 2, by decide, by decide⟩ : Info).FilesAgree :=
  (files_and_pieces_agree _ (by decide) (by decide) (by decide) (by decide)).mpr (by decide)

/-- **A slice out of range**: the pieces have `2 ^ 32` bytes, and empty files lie between two of
them. -/
theorem files_sliced_backwards :
    (⟨2 ^ 32, [2 ^ 32, 0, 0, 2 ^ 32], 2, by decide, by decide⟩ : Info).slicesInRange = false := by
  decide

end ReliableBT
