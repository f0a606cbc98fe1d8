import ReliableBT.Lib.Slice
import ReliableBT.Torrent.Geometry

/-!
# What `validateInfo` lets through (`misc.go`, `metainfo/info.go`, `metainfo/piece.go`)

A decoded info comes from a peer or a file, and its lengths are 64-bit integers of someone else's
choice: negative, zero, or so large that their sum wraps around. `validateInfo` is the only check.
It compares the number of hashes with the number of pieces that the lengths make, in 64-bit
arithmetic, and knows nothing of the 32-bit lengths that the torrent then works with
(`pp.Integer`).

`DecodedInfo` has what the source's struct has, and every computation wraps as the source's does.
`Consistent` is what the rest of the client takes for granted about an accepted info.

* `cut_of_validateInfo`: with a positive piece length and at least one piece, an accepted total
  length is exact, and the pieces cut it up.
* `consistent_iff`: an accepted info is consistent iff its piece length is positive and the 32-bit
  forms of the lengths in use are the lengths.
* `toInfo`: with non-negative lengths that do not overflow, an accepted info is an `Info`, which is
  what the other modules are about, and `pieceLen_toInfo` says that the piece lengths agree.
-/

open List Int64 Nat

namespace ReliableBT

/-- `metainfo.Info`, as decoded. -/
structure DecodedInfo where
  pieceLength : Int64
  pieces : Slice UInt8
  length : Int64 := 0
  files : List Int64 := []

/-- What `validateInfo` refuses an info for. -/
inductive InfoError where
  /-- `pieces has invalid length` -/
  | piecesLength
  /-- `zero piece length` -/
  | zeroPieceLength
  /-- `piece count and file lengths are at odds` -/
  | atOdds
  deriving DecidableEq, Repr

/-- `pp.Integer(n)`: the low 32 bits. -/
def ppInteger (n : Int64) : ℕ := (n.toInt % 2 ^ 32).toNat

namespace DecodedInfo

variable (info : DecodedInfo)

/-- `NumPieces` -/
def numPieces : Int64 := info.pieces.len / 20

/-- `TotalLength` -/
def totalLength : Int64 :=
  if info.files ≠ [] then info.files.foldl (· + ·) 0 else info.length

/-- The lengths of `UpvertedFiles`. -/
def upvertedFiles : List Int64 := if info.files = [] then [info.length] else info.files

/-- `validateInfo` -/
def validateInfo : Except InfoError Unit :=
  if info.pieces.len % 20 ≠ 0 then .error .piecesLength
  else if info.pieceLength = 0 then
    if info.totalLength ≠ 0 then .error .zeroPieceLength else .ok ()
  else if (info.totalLength + info.pieceLength - 1) / info.pieceLength ≠ info.numPieces then
    .error .atOdds
  else .ok ()

/-- `metainfo.Piece.Length`, of piece `i` -/
def metaPieceLength (i : Int64) : Int64 :=
  if i = info.numPieces - 1 then info.totalLength - i * info.pieceLength else info.pieceLength

/-- The torrent's `length`, as `cacheLength` computes it. -/
def cacheLength : Int64 := info.upvertedFiles.foldl (· + ·) 0

/-- `Torrent.pieceLength` -/
def pieceLen (i : Int64) : ℕ :=
  if info.pieceLength = 0 then 0
  else if i = info.numPieces - 1 ∧ ppInteger (info.cacheLength % info.pieceLength) ≠ 0 then
    ppInteger (info.cacheLength % info.pieceLength)
  else ppInteger info.pieceLength

/-- `chunksPerRegularPiece`, as `setInfo` computes it for the chunk size `cs` -/
def chunksPerRegularPiece (cs : ℕ) : ℕ := u32 (ppInteger info.pieceLength + cs - 1) / cs

/-- The index of a piece. -/
def IsPiece (i : Int64) : Prop := 0 ≤ i ∧ i < info.numPieces

/-- What the client takes for granted: a regular piece has a chunk, the two lengths of a piece
agree and are that of a piece, and the pieces make the data. -/
structure Consistent (cs : ℕ) : Prop where
  chunks : 1 ≤ info.chunksPerRegularPiece cs
  lengths : ∀ i, info.IsPiece i → (info.pieceLen i : ℤ) = (info.metaPieceLength i).toInt ∧
    1 ≤ info.pieceLen i ∧ (info.pieceLen i : ℤ) ≤ info.pieceLength.toInt
  total : (((range info.numPieces.toInt.toNat).map fun k =>
    info.pieceLen (Int64.ofNat k)).sum : ℤ) = info.totalLength.toInt

/-- The lengths in use survive the conversion to 32 bits: the regular piece length if there is more
than one piece, and otherwise the total length; and the chunks of a regular piece can be counted. -/
structure Fits (cs : ℕ) : Prop where
  pos : 0 < info.pieceLength
  used : info.pieceLength.toInt < 2 ^ 32 ∨
    (info.numPieces = 1 ∧ info.totalLength.toInt < 2 ^ 32)
  nonzero : ppInteger info.pieceLength ≠ 0
  room : ppInteger info.pieceLength + cs ≤ 2 ^ 32

/-! ## The lengths as integers -/

variable {info}

theorem toInt_foldl_add (l : List Int64) (a : Int64) :
    (l.foldl (· + ·) a).toInt = (a.toInt + (l.map toInt).sum).bmod (2 ^ 64) := by
  induction l generalizing a with
  | nil => simp
  | cons b l ih =>
    rw [foldl_cons, ih, toInt_add, Int.bmod_add_bmod, map_cons, sum_cons, Int.add_assoc]

theorem cacheLength_eq : info.cacheLength = info.totalLength := by
  unfold cacheLength upvertedFiles totalLength
  by_cases h : info.files = []
  · simp [h]
  · simp [h]

theorem toInt_numPieces : info.numPieces.toInt = (info.pieces.elems.length / 20 : ℕ) := by
  have hlen : info.pieces.elems.length ≤ 2 ^ 48 := info.pieces.bounded
  rw [numPieces, toInt_div, Slice.toInt_len]
  change ((info.pieces.elems.length : ℤ).tdiv 20).bmod (2 ^ 64) = _
  rw [Int.tdiv_eq_ediv_of_nonneg (Int.natCast_nonneg _), Int.bmod_eq_of_le (by omega) (by omega)]
  rfl

theorem toInt_lastPiece : (info.numPieces - 1).toInt = info.numPieces.toInt - 1 := by
  have hn := info.numPieces.toInt_lt
  have hpos : 0 ≤ info.numPieces.toInt := by
    rw [toInt_numPieces]
    exact Int.natCast_nonneg _
  rw [toInt_sub]
  exact Int.bmod_eq_of_le (by simp; omega) (by simp; omega)

variable {n p w i : Int64} {cs : ℕ}

theorem ppInteger_lt (n : Int64) : ppInteger n < 2 ^ 32 := by
  unfold ppInteger
  omega

theorem ppInteger_eq_iff (h : 0 ≤ n.toInt) : (ppInteger n : ℤ) = n.toInt ↔ n.toInt < 2 ^ 32 := by
  unfold ppInteger
  omega

/-- The sum that `validateInfo` divides is exact, or it wraps around to a negative one. -/
theorem toInt_roundUp {t : Int64} (hp : 0 < p.toInt) :
    (t + p - 1).toInt = t.toInt + p.toInt - 1 ∨ (t + p - 1).toInt < 0 := by
  have ht := t.toInt_lt
  have ht' := t.le_toInt
  have hp' := p.toInt_lt
  rw [toInt_sub, toInt_add]
  change ((t.toInt + p.toInt).bmod (2 ^ 64) - 1).bmod (2 ^ 64) = _ ∨
    ((t.toInt + p.toInt).bmod (2 ^ 64) - 1).bmod (2 ^ 64) < 0
  rw [Int.bmod_sub_bmod, Int.bmod_def]
  split
  · omega
  · omega

theorem toInt_div_of_nonneg (hw : 0 ≤ w.toInt) (hp : 0 < p.toInt) :
    (w / p).toInt = w.toInt / p.toInt := by
  have hlt := w.toInt_lt
  have hle : w.toInt / p.toInt ≤ w.toInt := Int.ediv_le_self _ hw
  have hge : 0 ≤ w.toInt / p.toInt := Int.ediv_nonneg hw hp.le
  rw [toInt_div, Int.tdiv_eq_ediv_of_nonneg hw]
  exact Int.bmod_eq_of_le (by omega) (by omega)

theorem toInt_div_of_neg (hw : w.toInt < 0) (hp : 0 < p.toInt) : (w / p).toInt ≤ 0 := by
  have hge := w.le_toInt
  have habs : (w.toInt.tdiv p.toInt).natAbs ≤ w.toInt.natAbs := by
    rw [Int.natAbs_tdiv]
    exact div_le_self _ _
  have hle : w.toInt.tdiv p.toInt ≤ 0 := by
    rw [← Int.neg_nonneg, ← Int.neg_tdiv]
    exact Int.tdiv_nonneg (by omega) hp.le
  rw [toInt_div, Int.bmod_eq_of_le (by omega) (by omega)]
  exact hle

/-! ## Accepted infos -/

theorem cut_of_validateInfo (h : info.validateInfo = .ok ()) (hp : 0 < info.pieceLength.toInt)
    (hn : 0 < info.numPieces.toInt) :
    (info.numPieces.toInt - 1) * info.pieceLength.toInt < info.totalLength.toInt ∧
      info.totalLength.toInt ≤ info.numPieces.toInt * info.pieceLength.toInt := by
  have hp0 : info.pieceLength ≠ 0 := by
    rintro h0
    rw [h0] at hp
    exact absurd hp (by decide)
  have hcount : (info.totalLength + info.pieceLength - 1) / info.pieceLength = info.numPieces := by
    unfold validateInfo at h
    rw [if_neg hp0] at h
    split at h
    · cases h
    · split at h
      · cases h
      · next hne => exact not_not.mp hne
  -- a sum that wrapped around would give no pieces
  rcases toInt_roundUp (t := info.totalLength) hp with hsum | hneg
  · by_cases hw : 0 ≤ (info.totalLength + info.pieceLength - 1).toInt
    · have hdiv := toInt_div_of_nonneg hw hp
      rw [hcount, hsum] at hdiv
      have hlo := Int.ediv_mul_le (info.totalLength.toInt + info.pieceLength.toInt - 1) hp.ne'
      have hhi := Int.lt_ediv_add_one_mul_self
        (info.totalLength.toInt + info.pieceLength.toInt - 1) hp
      rw [← hdiv] at hlo hhi
      rw [Int.sub_mul, Int.one_mul]
      rw [Int.add_mul, Int.one_mul] at hhi
      omega
    · have hle := toInt_div_of_neg (Int.not_le.mp hw) hp
      rw [hcount] at hle
      omega
  · have hle := toInt_div_of_neg hneg hp
    rw [hcount] at hle
    omega

theorem toInt_metaPieceLength_last (h : info.validateInfo = .ok ())
    (hp : 0 < info.pieceLength.toInt) (hn : 0 < info.numPieces.toInt) :
    (info.metaPieceLength (info.numPieces - 1)).toInt =
      info.totalLength.toInt - (info.numPieces.toInt - 1) * info.pieceLength.toInt := by
  obtain ⟨hlo, -⟩ := cut_of_validateInfo h hp hn
  have hlt := info.totalLength.toInt_lt
  have hge : 0 ≤ (info.numPieces.toInt - 1) * info.pieceLength.toInt :=
    Int.mul_nonneg (by omega) hp.le
  rw [metaPieceLength, if_pos rfl, toInt_sub, toInt_mul, toInt_lastPiece, Int.sub_bmod_bmod]
  exact Int.bmod_eq_of_le (by simp; omega) (by simp; omega)

theorem metaPieceLength_of_ne (hi : i ≠ info.numPieces - 1) :
    info.metaPieceLength i = info.pieceLength :=
  if_neg hi

theorem pieceLen_of_ne (hp : info.pieceLength ≠ 0) (hi : i ≠ info.numPieces - 1) :
    info.pieceLen i = ppInteger info.pieceLength := by
  rw [pieceLen, if_neg hp, if_neg fun h => hi h.1]

theorem pieceLen_lt (i : Int64) : info.pieceLen i < 2 ^ 32 := by
  unfold pieceLen
  split_ifs
  · exact Nat.two_pow_pos 32
  · exact ppInteger_lt _
  · exact ppInteger_lt _

theorem pieceLen_last (h : info.validateInfo = .ok ()) (hp : 0 < info.pieceLength.toInt)
    (hn : 0 < info.numPieces.toInt)
    (hfit : info.totalLength.toInt - (info.numPieces.toInt - 1) * info.pieceLength.toInt < 2 ^ 32) :
    (info.pieceLen (info.numPieces - 1) : ℤ) =
      info.totalLength.toInt - (info.numPieces.toInt - 1) * info.pieceLength.toInt := by
  obtain ⟨hlo, hhi⟩ := cut_of_validateInfo h hp hn
  have hp0 : info.pieceLength ≠ 0 := by
    intro h0
    rw [h0] at hp
    exact absurd hp (by decide)
  have hT : 0 ≤ info.totalLength.toInt := by
    have := Int.mul_nonneg (by omega : 0 ≤ info.numPieces.toInt - 1) hp.le
    omega
  set L := info.totalLength.toInt - (info.numPieces.toInt - 1) * info.pieceLength.toInt with hL
  have hTL : info.totalLength.toInt =
      L + (info.numPieces.toInt - 1) * info.pieceLength.toInt := by omega
  have hLle : L ≤ info.pieceLength.toInt := by
    rw [Int.sub_mul, Int.one_mul] at hL
    omega
  have hmod : (info.totalLength % info.pieceLength).toInt = L % info.pieceLength.toInt := by
    rw [toInt_mod, Int.tmod_eq_emod_of_nonneg hT, hTL, Int.add_mul_emod_self_right]
  rw [pieceLen, if_neg hp0, cacheLength_eq]
  rcases Int.lt_or_eq_of_le hLle with hlt | heq
  · have hrest : (info.totalLength % info.pieceLength).toInt = L := by
      rw [hmod, Int.emod_eq_of_lt (by omega) hlt]
    have hpp : (ppInteger (info.totalLength % info.pieceLength) : ℤ) = L := by
      rw [(ppInteger_eq_iff (by omega)).mpr (by omega), hrest]
    rw [if_pos ⟨rfl, by omega⟩]
    exact hpp
  · have hzero : ppInteger (info.totalLength % info.pieceLength) = 0 := by
      rw [ppInteger, hmod, heq, Int.emod_self]
      rfl
    rw [if_neg fun hc => hc.2 hzero, (ppInteger_eq_iff hp.le).mpr (by omega), heq]

theorem one_le_chunksPerRegularPiece_iff (hcs : 0 < cs) :
    1 ≤ info.chunksPerRegularPiece cs ↔
      ppInteger info.pieceLength ≠ 0 ∧ ppInteger info.pieceLength + cs ≤ 2 ^ 32 := by
  have hlt := ppInteger_lt info.pieceLength
  rw [chunksPerRegularPiece, one_le_div_iff hcs, u32]
  omega

theorem Fits.length_lt (hf : info.Fits cs) (h : info.validateInfo = .ok ())
    (hn : 0 < info.numPieces.toInt) :
    info.totalLength.toInt - (info.numPieces.toInt - 1) * info.pieceLength.toInt < 2 ^ 32 := by
  have hp : 0 < info.pieceLength.toInt := lt_iff_toInt_lt.mp hf.pos
  obtain ⟨-, hhi⟩ := cut_of_validateInfo h hp hn
  rcases hf.used with hlt | ⟨hone, hlt⟩
  · rw [Int.sub_mul, Int.one_mul]
    omega
  · have h1 : info.numPieces.toInt = 1 := by rw [hone]; rfl
    rw [h1, Int.sub_self, Int.zero_mul, Int.sub_zero]
    exact hlt

theorem Fits.pieceLen_of_ne (hf : info.Fits cs) (hi : info.IsPiece i)
    (hne : i ≠ info.numPieces - 1) :
    (info.pieceLen i : ℤ) = info.pieceLength.toInt := by
  have hp : 0 < info.pieceLength.toInt := lt_iff_toInt_lt.mp hf.pos
  have hp0 : info.pieceLength ≠ 0 := fun h0 => absurd (h0 ▸ hp) (by decide)
  have hi0 : 0 ≤ i.toInt := le_iff_toInt_le.mp hi.1
  have hin : i.toInt < info.numPieces.toInt := lt_iff_toInt_lt.mp hi.2
  have hlast : i.toInt ≠ info.numPieces.toInt - 1 := by
    rw [← toInt_lastPiece]
    exact fun h => hne (toInt_inj.mp h)
  rw [DecodedInfo.pieceLen_of_ne hp0 hne, ppInteger_eq_iff hp.le]
  rcases hf.used with hlt | ⟨hone, -⟩
  · exact hlt
  · have h1 : info.numPieces.toInt = 1 := by rw [hone]; rfl
    omega

theorem Fits.lengths (hf : info.Fits cs) (h : info.validateInfo = .ok ())
    (hn : 0 < info.numPieces.toInt) (i : Int64) (hi : info.IsPiece i) :
    (info.pieceLen i : ℤ) = (info.metaPieceLength i).toInt ∧
      1 ≤ info.pieceLen i ∧ (info.pieceLen i : ℤ) ≤ info.pieceLength.toInt := by
  have hp : 0 < info.pieceLength.toInt := lt_iff_toInt_lt.mp hf.pos
  by_cases hlast : i = info.numPieces - 1
  · subst hlast
    obtain ⟨hlo, hhi⟩ := cut_of_validateInfo h hp hn
    have hlen := pieceLen_last h hp hn (hf.length_lt h hn)
    have hmeta := toInt_metaPieceLength_last h hp hn
    rw [Int.sub_mul, Int.one_mul] at hlen hmeta hlo
    exact ⟨by omega, by omega, by omega⟩
  · have hlen := hf.pieceLen_of_ne hi hlast
    rw [metaPieceLength_of_ne hlast]
    exact ⟨hlen, by omega, hlen.le⟩

theorem isPiece_ofNat {k : ℕ} (hk : k < info.numPieces.toInt.toNat) :
    (ofNat k).toInt = k ∧ info.IsPiece (ofNat k) := by
  have hn := info.numPieces.toInt_lt
  have hto : (ofNat k).toInt = k := toInt_ofNat_of_lt (by omega)
  refine ⟨hto, ?_, ?_⟩
  · rw [le_iff_toInt_le, hto]
    exact Int.natCast_nonneg k
  · rw [lt_iff_toInt_lt, hto]
    omega

theorem Fits.total (hf : info.Fits cs) (h : info.validateInfo = .ok ())
    (hn : 0 < info.numPieces.toInt) :
    (((range info.numPieces.toInt.toNat).map fun k =>
      info.pieceLen (ofNat k)).sum : ℤ) = info.totalLength.toInt := by
  have hp : 0 < info.pieceLength.toInt := lt_iff_toInt_lt.mp hf.pos
  obtain ⟨m, hm⟩ : ∃ m, info.numPieces.toInt.toNat = m + 1 := ⟨_, (succ_pred (by omega)).symm⟩
  have hmn : info.numPieces.toInt = m + 1 := by omega
  have hlast : ofNat m = info.numPieces - 1 := by
    rw [← toInt_inj, toInt_lastPiece, (@isPiece_ofNat info m (by omega)).1]
    omega
  -- the pieces before the last one are regular
  have hreg : ∀ j ≤ m, (((range j).map fun k => info.pieceLen (ofNat k)).sum : ℤ) =
      j * info.pieceLength.toInt := by
    intro j hj
    induction j with
    | zero => simp
    | succ j ih =>
      obtain ⟨hto, hpiece⟩ := @isPiece_ofNat info j (by omega)
      have hne : ofNat j ≠ info.numPieces - 1 := by
        rw [Ne, ← toInt_inj, toInt_lastPiece, hto]
        omega
      rw [range_succ, map_append, List.sum_append, cast_add, ih (by omega)]
      simp only [map_cons, map_nil, sum_singleton]
      rw [hf.pieceLen_of_ne hpiece hne, cast_add, Int.add_mul, cast_one, Int.one_mul]
  rw [hm, range_succ, map_append, List.sum_append, cast_add, hreg m (le_refl m)]
  simp only [map_cons, map_nil, sum_singleton]
  rw [hlast, pieceLen_last h hp hn (hf.length_lt h hn), hmn]
  simp

/-- **Accepted infos.** An info with pieces that `validateInfo` accepts is consistent iff its piece
length is positive and the lengths in use survive the conversion to 32 bits. -/
theorem consistent_iff {cs : ℕ} (h : info.validateInfo = .ok ()) (hn : 0 < info.numPieces)
    (hcs : 0 < cs) : info.Consistent cs ↔ info.Fits cs := by
  have hn' : 0 < info.numPieces.toInt := Int64.lt_iff_toInt_lt.mp hn
  constructor
  · intro hc
    obtain ⟨hnonzero, hroom⟩ := (one_le_chunksPerRegularPiece_iff hcs).mp hc.chunks
    have hfirst : info.IsPiece 0 := ⟨Int64.le_refl 0, hn⟩
    obtain ⟨heq, hpos, hle⟩ := hc.lengths 0 hfirst
    have hp : 0 < info.pieceLength.toInt := by omega
    have hlt := @pieceLen_lt info 0
    refine ⟨Int64.lt_iff_toInt_lt.mpr hp, ?_, hnonzero, hroom⟩
    by_cases hlast : (0 : Int64) = info.numPieces - 1
    · have hone : info.numPieces.toInt = 1 := by
        have hzero := @toInt_lastPiece info
        rw [← hlast] at hzero
        change (0 : ℤ) = _ at hzero
        omega
      have hmeta := toInt_metaPieceLength_last h hp hn'
      rw [← hlast, ← heq, hone, Int.sub_self, Int.zero_mul, Int.sub_zero] at hmeta
      exact .inr ⟨Int64.toInt_inj.mp (hone.trans rfl), by omega⟩
    · rw [metaPieceLength_of_ne hlast] at heq
      exact .inl (by omega)
  · intro hf
    exact ⟨(one_le_chunksPerRegularPiece_iff hcs).mpr ⟨hf.nonzero, hf.room⟩, hf.lengths h hn',
      hf.total h hn'⟩

/-- Two pieces, the second shorter, of two files. -/
def sample : DecodedInfo where
  pieceLength := 32768
  pieces := ⟨replicate 40 0, by decide⟩
  files := [32768, 5]

theorem sample_consistent : sample.Consistent 16384 :=
  (consistent_iff (by decide) (by decide) (by decide)).mpr
    ⟨by decide, .inl (by decide), by decide, by decide⟩

/-- A piece length of `2 ^ 32`, which is zero as a `pp.Integer`. -/
def longPiece : DecodedInfo where
  pieceLength := 4294967296
  pieces := ⟨replicate 20 0, by decide⟩
  length := 5

/-- A negative piece length, and a negative length of data for one piece. -/
def negativePiece : DecodedInfo where
  pieceLength := -3
  pieces := ⟨replicate 20 0, by decide⟩
  length := -1

/-- Both are accepted; a regular piece of the first has no chunks, and the piece of the second is
longer than any piece may be. -/
theorem accepted_inconsistent :
    (longPiece.validateInfo = .ok () ∧ 0 < longPiece.numPieces ∧
      longPiece.chunksPerRegularPiece 16384 = 0 ∧ ¬ longPiece.Consistent 16384) ∧
    (negativePiece.validateInfo = .ok () ∧ 0 < negativePiece.numPieces ∧
      negativePiece.pieceLen 0 = 4294967295 ∧ ¬ negativePiece.Consistent 16384) := by
  refine ⟨⟨by decide, by decide, by decide, fun hc => ?_⟩, ⟨by decide, by decide, by decide,
    fun hc => ?_⟩⟩
  · exact absurd hc.chunks (by decide)
  · exact absurd (hc.lengths 0 ⟨by decide, by decide⟩).2.2 (by decide)

/-! ## The infos of the other modules -/

/-- An accepted info whose lengths are lengths. -/
structure Proper (info : DecodedInfo) : Prop where
  accepted : info.validateInfo = .ok ()
  hasPiece : 0 < info.numPieces
  pos : 0 < info.pieceLength
  nonneg : ∀ l ∈ info.upvertedFiles, 0 ≤ l
  exact : (info.upvertedFiles.map Int64.toInt).sum < 2 ^ 63

/-- The lengths of the files as natural numbers. -/
def fileLengths : List ℕ := info.upvertedFiles.map fun l => l.toInt.toNat

theorem fileLengths_ne : info.fileLengths ≠ [] := by
  unfold fileLengths upvertedFiles
  by_cases h : info.files = []
  · simp [h]
  · simp [h]

theorem sum_toNat {l : List Int64} (h : ∀ x ∈ l, 0 ≤ x) :
    (((l.map fun x => x.toInt.toNat).sum : ℕ) : ℤ) = (l.map toInt).sum := by
  induction l with
  | nil => rfl
  | cons x l ih =>
    have hx : 0 ≤ x.toInt := le_iff_toInt_le.mp (h x mem_cons_self)
    rw [map_cons, sum_cons, map_cons, sum_cons, cast_add,
      ih fun y hy => h y (mem_cons_of_mem x hy), Int.toNat_of_nonneg hx]

theorem Proper.totalLength_eq (h : info.Proper) :
    info.totalLength.toInt = info.fileLengths.sum := by
  have hsum : (info.fileLengths.sum : ℤ) = (info.upvertedFiles.map toInt).sum :=
    sum_toNat h.nonneg
  have hlt := h.exact
  rw [← cacheLength_eq, cacheLength, toInt_foldl_add, ← hsum]
  change ((0 : ℤ) + info.fileLengths.sum).bmod (2 ^ 64) = _
  rw [Int.zero_add, Int.bmod_eq_of_le (by omega) (by omega)]

theorem Proper.valid (h : info.Proper) : ReliableBT.validateInfo info.pieceLength.toInt.toNat
    info.fileLengths.sum info.numPieces.toInt.toNat = true := by
  have hp : 0 < info.pieceLength.toInt := lt_iff_toInt_lt.mp h.pos
  have hn : 0 < info.numPieces.toInt := lt_iff_toInt_lt.mp h.hasPiece
  obtain ⟨hlo, hhi⟩ := cut_of_validateInfo h.accepted hp hn
  rw [h.totalLength_eq] at hlo hhi
  obtain ⟨p, hP⟩ : ∃ p : ℕ, info.pieceLength.toInt = p := ⟨_, (Int.toNat_of_nonneg hp.le).symm⟩
  obtain ⟨m, hM⟩ : ∃ m : ℕ, info.numPieces.toInt = m + 1 :=
    ⟨(info.numPieces.toInt - 1).toNat, by omega⟩
  rw [hP] at hp hlo hhi
  rw [hM, Int.add_sub_cancel] at hlo
  rw [hM, Int.add_mul, Int.one_mul] at hhi
  norm_cast at hlo hhi hp
  rw [ReliableBT.validateInfo, hP, hM, if_neg (by omega), decide_eq_true_eq]
  change (info.fileLengths.sum + p - 1) / p = m + 1
  rw [Nat.div_eq_iff hp, Nat.add_mul, Nat.one_mul]
  omega

/-- The info, as the other modules have it. -/
def toInfo (h : info.Proper) : Info where
  pieceLength := info.pieceLength.toInt.toNat
  fileLengths := info.fileLengths
  numPieces := info.numPieces.toInt.toNat
  files_ne := fileLengths_ne
  valid := h.valid

theorem ppInteger_eq_u32 (h : 0 ≤ n.toInt) : ppInteger n = u32 n.toInt.toNat := by
  unfold ppInteger u32
  omega

/-- The piece lengths of the two agree. -/
theorem pieceLen_toInfo (h : info.Proper) {k : ℕ} (hk : k < info.numPieces.toInt.toNat) :
    (info.toInfo h).pieceLen k = info.pieceLen (ofNat k) := by
  have hp : 0 < info.pieceLength.toInt := lt_iff_toInt_lt.mp h.pos
  have hT := h.totalLength_eq
  have hmod : (info.totalLength % info.pieceLength).toInt =
      (info.fileLengths.sum % info.pieceLength.toInt.toNat : ℕ) := by
    rw [toInt_mod, Int.tmod_eq_emod_of_nonneg (by omega), hT, Int.natCast_emod,
      Int.toNat_of_nonneg hp.le]
  have hlast : ofNat k = info.numPieces - 1 ↔ k + 1 = info.numPieces.toInt.toNat := by
    rw [← toInt_inj, toInt_lastPiece, (isPiece_ofNat hk).1]
    omega
  have hp0 : info.pieceLength ≠ 0 := fun h0 => absurd (h0 ▸ hp) (by decide)
  have hrest : ppInteger (info.totalLength % info.pieceLength) =
      u32 (info.fileLengths.sum % info.pieceLength.toInt.toNat) := by
    rw [ppInteger_eq_u32 (by omega), hmod, Int.toNat_natCast]
  rw [Info.pieceLen, pieceLen, cacheLength_eq, if_neg hp0, hrest, ppInteger_eq_u32 hp.le]
  have hpn : (info.toInfo h).pieceLength ≠ 0 := by
    change info.pieceLength.toInt.toNat ≠ 0
    omega
  rw [if_neg hpn]
  exact if_congr (and_congr_left' hlast.symm) rfl rfl

theorem proper_sample : sample.Proper where
  accepted := by decide
  hasPiece := by decide
  pos := by decide
  nonneg := by simp [sample, upvertedFiles]
  exact := by decide

theorem pieceLen_toInfo_sample :
    (sample.toInfo proper_sample).pieceLen 1 = sample.pieceLen (ofNat 1) :=
  pieceLen_toInfo proper_sample (by decide)

end DecodedInfo

end ReliableBT
