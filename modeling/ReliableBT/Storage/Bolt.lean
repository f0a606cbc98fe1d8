import ReliableBT.Lib.Bytes
import ReliableBT.Storage.File

/-!
# The bolt storage (`storage/bolt.go`, `storage/bolt-piece.go`)

All torrents of a client share one key-value database. The data of a piece is cut into blocks of
`chunkSize` bytes, and a block is stored under the key of its piece, that is the infohash and the
index of the piece, followed by its own index in the piece. A write reads the blocks that it is
about, fills up what is missing with zeros, and puts them back.

The index of a piece gets four bytes in a key and the index of a block gets two, and nothing checks
that they fit. So the blocks of a piece longer than `2 ^ 30` bytes share keys, and a write at
`2 ^ 30` goes to the first block.

The database is a map that is changed by whole transactions; they succeed.

* `stored_writeLoop`: what a write does to the blocks whose keys no other block has.
* `readLoop_eq`: a read gives the bytes of the blocks, if all of them are there.
* `flat_iff`: the storage is one array of bytes for each piece iff no piece is longer than
  `2 ^ 30` bytes and no two pieces of a torrent have the same index in four bytes.
-/

open List Option Nat

namespace ReliableBT.Bolt

open Bytes
open Storage (FileError)

/-- `chunkSize` -/
@[irreducible] def chunkSize : ℕ := 2 ^ 14

/-- `metainfo.Hash` -/
@[ext] structure Hash where
  bytes : List UInt8
  size : bytes.length = 20
  deriving DecidableEq

/-- A torrent and a piece of it: `ih` and `p.Index()` -/
abbrev PieceId := Hash × ℕ

/-- The data bucket. -/
abbrev Bucket := List UInt8 → Option (List UInt8)

/-- The database, which has no data bucket at first. -/
abbrev Db := Option Bucket

/-- `key` of `boltPiece` -/
def pieceKey (p : PieceId) : List UInt8 := p.1.bytes ++ putBE 4 p.2

/-- `chunkKey` -/
def chunkKey (p : PieceId) (index : ℕ) : List UInt8 := pieceKey p ++ putBE 2 index

/-- `Put` -/
def Bucket.put (b : Bucket) (key value : List UInt8) : Bucket :=
  fun k => if k = key then some value else b k

/-- `copy(dst[off:], src)` -/
def copyAt (dst src : List UInt8) (off : ℕ) : List UInt8 :=
  dst.take off ++ src.take (dst.length - off) ++ dst.drop (off + src.length)

/-- The loop of `ReadAt`; every round reads something, so `len` rounds do. -/
def readLoop (b : Bucket) (p : PieceId) : ℕ → ℕ → ℕ → ℕ → List UInt8 × Option FileError
  | 0, _, _, _ => ([], none)
  | fuel + 1, ci, off, len =>
    if len = 0 then ([], none)
    else
      let block := (b (chunkKey p ci)).getD []
      -- if the chunk is the wrong size, assume it's missing
      if block.length ≠ chunkSize then ([], some .eof)
      else
        let bytes := (block.drop off).take len
        let rest := readLoop b p fuel (ci + 1) 0 (len - bytes.length)
        (bytes ++ rest.1, rest.2)

/-- `ReadAt`, into a buffer of `len` bytes -/
def readAt (db : Db) (p : PieceId) (len off : ℕ) : List UInt8 × Option FileError :=
  match db with
  | none => ([], some .eof)
  | some b => readLoop b p len (off / chunkSize) (off % chunkSize) len

/-- The loop of `WriteAt`, with the number of bytes written; every round writes something. -/
def writeLoop (p : PieceId) : ℕ → Bucket → ℕ → ℕ → List UInt8 → Bucket × ℕ
  | 0, b, _, _, _ => (b, 0)
  | fuel + 1, b, ci, off, data =>
    if data = [] then (b, 0)
    else
      let key := chunkKey p ci
      let block := copyAt (replicate chunkSize 0) ((b key).getD []) 0
      let n1 := min (chunkSize - off) data.length
      let rest := writeLoop p fuel (b.put key (copyAt block data off)) (ci + 1) 0 (data.drop n1)
      (rest.1, n1 + rest.2)

/-- `WriteAt` -/
def writeAt (db : Db) (w : Write PieceId) : Db × ℕ :=
  let r := writeLoop w.array w.data.length (db.getD fun _ => none) (w.off / chunkSize)
    (w.off % chunkSize) w.data
  (some r.1, r.2)

/-! ## Blocks -/

theorem chunkSize_eq : chunkSize = 2 ^ 14 := by
  unfold chunkSize
  rfl

theorem chunkSize_pos : 0 < chunkSize := by
  rw [chunkSize_eq]
  decide

variable {dst src : List UInt8} {off r : ℕ} {b : Bucket} {key value : List UInt8} {c : ℕ}
  {p : PieceId} {fuel ci : ℕ} {data : List UInt8} {k : ℕ} {p' : PieceId} {len : PieceId → ℕ} {n : ℕ}
  {db : Db} {q : PieceId} {l : ℕ}

theorem length_copyAt (h : off ≤ dst.length) : (copyAt dst src off).length = dst.length := by
  simp only [copyAt, length_append, length_take, length_drop]
  omega

theorem getElem?_copyAt (hoff : off ≤ dst.length) (hr : r < dst.length) :
    (copyAt dst src off)[r]? = (if off ≤ r then src[r - off]? else none).or dst[r]? := by
  have htake : (dst.take off).length = off := by
    rw [length_take]
    omega
  rw [copyAt, append_assoc]
  by_cases hlt : r < off
  · rw [if_neg (by omega), none_or, getElem?_append_left (by omega),
      getElem?_take_of_lt hlt]
  · rw [if_pos (by omega), getElem?_append_right (by omega), htake]
    by_cases hin : r - off < src.length
    · rw [getElem?_append_left (by rw [length_take]; omega),
        getElem?_take_of_lt (by omega), getElem?_eq_getElem hin, some_or]
    · rw [getElem?_append_right (by rw [length_take]; omega), length_take,
        getElem?_eq_none (l := src) (by omega), none_or, getElem?_drop]
      congr 1
      omega

/-- The byte `r` of the block `c` of a piece. -/
def stored (b : Bucket) (p : PieceId) (c r : ℕ) : Option UInt8 := (b (chunkKey p c)).bind (·[r]?)

/-- All blocks are whole. -/
def Whole (b : Bucket) : Prop := ∀ key block, b key = some block → block.length = chunkSize

theorem length_block (b : Bucket) (key : List UInt8) :
    (copyAt (replicate chunkSize 0) ((b key).getD []) 0).length = chunkSize := by
  rw [length_copyAt (zero_le _), length_replicate]

theorem Whole.put (h : Whole b) (hv : value.length = chunkSize) : Whole (b.put key value) := by
  intro key' block hblock
  rw [Bucket.put] at hblock
  split at hblock
  · rw [← some.inj hblock, hv]
  · exact h key' block hblock

theorem getElem?_block (b : Bucket) (p : PieceId) (data : List UInt8) (hoff : off ≤ chunkSize)
    (hr : r < chunkSize) :
    (copyAt (copyAt (replicate chunkSize 0) ((b (chunkKey p c)).getD []) 0) data off)[r]? =
      ((if off ≤ r then data[r - off]? else none).or (stored b p c r)).or (some 0) := by
  have hblock := length_block b (chunkKey p c)
  rw [getElem?_copyAt (by omega) (by omega),
    getElem?_copyAt (zero_le _) (by rw [length_replicate]; exact hr),
    if_pos (Nat.zero_le r), getElem?_replicate, if_pos hr, Nat.sub_zero, Option.or_assoc,
    stored]
  cases b (chunkKey p c) with
  | none => rfl
  | some block => rfl

/-! ## Writing -/

theorem whole_writeLoop (hb : Whole b) (hoff : off ≤ chunkSize) :
    Whole (writeLoop p fuel b ci off data).1 := by
  induction fuel generalizing b ci off data with
  | zero => exact hb
  | succ fuel ih =>
    rw [writeLoop]
    split
    · exact hb
    · refine ih (hb.put ?_) (zero_le _)
      rw [length_copyAt (by rw [length_block]; exact hoff), length_block]

theorem stored_put_of_ne (h : chunkKey p c ≠ key) :
    stored (b.put key value) p c r = stored b p c r := by
  rw [stored, Bucket.put, if_neg h, stored]

/-- What a round leaves for the next ones is in the same places: there is nothing left unless the
round has filled its block. -/
theorem getElem?_drop_round {lo : ℕ} (hoff : off < chunkSize) (hk : lo + chunkSize ≤ k) :
    (data.drop (min (chunkSize - off) data.length))[k - (lo + chunkSize)]? =
      data[k - (lo + off)]? := by
  rw [getElem?_drop]
  by_cases hfull : chunkSize - off ≤ data.length
  · have hplace : min (chunkSize - off) data.length + (k - (lo + chunkSize)) = k - (lo + off) := by
      omega
    rw [hplace]
  · rw [getElem?_eq_none (by omega), getElem?_eq_none (by omega)]

/-- A write goes to the blocks from `ci` to the last one that starts in front of its end. No other
block has the key of one of them. -/
def Apart (p : PieceId) (ci stop : ℕ) (p' : PieceId) (c : ℕ) : Prop :=
  ∀ c₁, ci ≤ c₁ → c₁ * chunkSize < stop → chunkKey p' c = chunkKey p c₁ → p' = p ∧ c = c₁

/-- **`WriteAt`**, seen from a block whose key is apart from the others. -/
theorem stored_writeLoop (hfuel : data.length ≤ fuel) (hoff : off < chunkSize) (hr : r < chunkSize)
    (hapart : Apart p ci (ci * chunkSize + off + data.length) p' c) :
    stored (writeLoop p fuel b ci off data).1 p' c r =
      ((if p' = p ∧ ci * chunkSize + off ≤ c * chunkSize + r then
          data[c * chunkSize + r - (ci * chunkSize + off)]?
        else none).or (stored b p' c r)).or
        (if p' = p ∧ data ≠ [] ∧ ci ≤ c ∧ c * chunkSize < ci * chunkSize + off + data.length then
          some 0
        else none) := by
  induction fuel generalizing b ci off data with
  | zero =>
    obtain rfl : data = [] := length_eq_zero_iff.mp (le_zero.mp hfuel)
    simp [writeLoop]
  | succ fuel ih =>
    rw [writeLoop]
    by_cases hnil : data = []
    · simp [hnil]
    · have hpos := length_pos_iff.mpr hnil
      have hsucc : (ci + 1) * chunkSize = ci * chunkSize + chunkSize := succ_mul ci chunkSize
      have hbehind : ∀ {c₁}, ci < c₁ → (ci + 1) * chunkSize ≤ c₁ * chunkSize :=
        fun hlt => mul_le_mul_right _ hlt
      rw [if_neg hnil]
      dsimp only
      rw [ih (by rw [length_drop]; omega) chunkSize_pos (by
        intro c₁ hc₁ hlt hkey
        rw [length_drop] at hlt
        have := hbehind hc₁
        exact hapart c₁ (by omega) (by omega) hkey)]
      rw [length_drop, hsucc, add_zero]
      by_cases hhere : p' = p ∧ c = ci
      · -- the block of this round, which the later rounds leave alone
        obtain ⟨rfl, rfl⟩ := hhere
        simp only [true_and]
        have hnow : ¬ c * chunkSize + chunkSize ≤ c * chunkSize + r := by omega
        have hlater : ¬ (data.drop (min (chunkSize - off) data.length) ≠ [] ∧ c + 1 ≤ c ∧
            c * chunkSize < c * chunkSize + chunkSize +
              (data.length - min (chunkSize - off) data.length)) := by omega
        have htouch : data ≠ [] ∧ c ≤ c ∧
            c * chunkSize < c * chunkSize + off + data.length := ⟨hnil, le_refl c, by omega⟩
        have hplace : c * chunkSize + r - (c * chunkSize + off) = r - off := by omega
        rw [if_neg hnow, if_neg hlater, if_pos htouch, none_or, or_none, stored,
          Bucket.put, if_pos rfl, bind_some, getElem?_block b p' data hoff.le hr, hplace]
        simp only [add_le_add_iff_left]
      · rw [stored_put_of_ne fun hkey =>
          hhere (hapart ci (le_refl ci) (by omega) hkey)]
        by_cases hp : p' = p
        · subst hp
          simp only [true_and] at hhere ⊢
          rcases lt_or_gt_of_ne hhere with hlt | hgt
          · -- in front of the write
            have hmul : (c + 1) * chunkSize ≤ ci * chunkSize := mul_le_mul_right _ hlt
            rw [succ_mul] at hmul
            rw [if_neg (by omega), if_neg (by omega), if_neg (by omega), if_neg (by omega)]
          · -- behind this round
            have hmul := hbehind hgt
            have htouch : (data.drop (min (chunkSize - off) data.length) ≠ [] ∧ ci + 1 ≤ c ∧
                  c * chunkSize < ci * chunkSize + chunkSize +
                    (data.length - min (chunkSize - off) data.length)) ↔
                data ≠ [] ∧ ci ≤ c ∧ c * chunkSize < ci * chunkSize + off + data.length := by
              rw [← length_pos_iff, ← length_pos_iff, length_drop]
              omega
            have hlo : ci * chunkSize + chunkSize ≤ c * chunkSize + r := by omega
            have hlo' : ci * chunkSize + off ≤ c * chunkSize + r := by omega
            rw [if_pos hlo, if_pos hlo', getElem?_drop_round hoff hlo, if_congr htouch rfl rfl]
        · rw [if_neg fun h => hp h.1, if_neg fun h => hp h.1, if_neg fun h => hp h.1,
            if_neg fun h => hp h.1]

/-! ## Reading -/

/-- The byte `k` of a piece. -/
def byteOf (b : Bucket) (p : PieceId) (k : ℕ) : Option UInt8 :=
  stored b p (k / chunkSize) (k % chunkSize)

theorem div_chunk (hr : r < chunkSize) : (c * chunkSize + r) / chunkSize = c := by
  rw [add_comm, add_mul_div_right _ _ chunkSize_pos, div_eq_of_lt hr, zero_add]

theorem byteOf_place (b : Bucket) (p : PieceId) (hr : r < chunkSize) :
    byteOf b p (c * chunkSize + r) = stored b p c r := by
  rw [byteOf, div_chunk hr, mul_add_mod_self_right, mod_eq_of_lt hr]

/-- **`ReadAt`**, when all blocks are there. -/
theorem readLoop_eq {b : Bucket} (hb : Whole b) {p : PieceId} {fuel ci off len : ℕ}
    (hfuel : len ≤ fuel) (hoff : off < chunkSize)
    (hblocks : ∀ k < len, (b (chunkKey p ((ci * chunkSize + off + k) / chunkSize))).isSome) :
    ∃ bytes, readLoop b p fuel ci off len = (bytes, none) ∧ bytes.length = len ∧
      ∀ k < len, bytes[k]? = byteOf b p (ci * chunkSize + off + k) := by
  induction fuel generalizing ci off len with
  | zero =>
    obtain rfl : len = 0 := le_zero.mp hfuel
    exact ⟨[], rfl, rfl, by omega⟩
  | succ fuel ih =>
    rw [readLoop]
    by_cases hlen : len = 0
    · rw [if_pos hlen]
      exact ⟨[], rfl, hlen.symm, by omega⟩
    · have hsucc : (ci + 1) * chunkSize = ci * chunkSize + chunkSize := succ_mul ci chunkSize
      have hfirst := hblocks 0 (pos_of_ne_zero hlen)
      rw [add_zero, div_chunk hoff] at hfirst
      obtain ⟨block, hblock⟩ := isSome_iff_exists.mp hfirst
      have hsize := hb _ _ hblock
      rw [if_neg hlen, hblock]
      dsimp only [getD_some]
      rw [if_neg (not_not.mpr hsize)]
      have hn1 : ((block.drop off).take len).length = min len (chunkSize - off) := by
        rw [length_take, length_drop, hsize]
      obtain ⟨bytes, hrest, hbytes, hat⟩ := @ih (ci + 1) 0
        (len - ((block.drop off).take len).length) (by omega) chunkSize_pos (by
          intro k hk
          have hplace : (ci + 1) * chunkSize + 0 + k =
              ci * chunkSize + off + (((block.drop off).take len).length + k) := by omega
          rw [hplace]
          exact hblocks _ (by omega))
      refine ⟨(block.drop off).take len ++ bytes, by rw [hrest], ?_, fun k hk => ?_⟩
      · rw [length_append]
        omega
      · by_cases hin : k < ((block.drop off).take len).length
        · rw [getElem?_append_left hin, getElem?_take_of_lt hk, getElem?_drop,
            add_assoc, byteOf_place b p (by omega), stored, hblock, bind_some]
        · have hplace : (ci + 1) * chunkSize + 0 + (k - ((block.drop off).take len).length) =
              ci * chunkSize + off + k := by omega
          rw [getElem?_append_right (by omega), hat _ (by omega), hplace]

/-- What a read of one byte gives. -/
def byte (db : Db) (p : PieceId) (k : ℕ) : Option UInt8 := (readAt db p 1 k).1[0]?

theorem byte_none (p : PieceId) (k : ℕ) : byte none p k = none := rfl

theorem byte_some (hb : Whole b) (p : PieceId) (k : ℕ) : byte (some b) p k = byteOf b p k := by
  have hmod := mod_lt k chunkSize_pos
  cases hblock : b (chunkKey p (k / chunkSize)) with
  | none =>
    have hsize : ([] : List UInt8).length ≠ chunkSize := chunkSize_pos.ne
    rw [byteOf, stored, hblock, byte, readAt, readLoop, hblock, if_neg one_ne_zero]
    dsimp only [getD_none]
    rw [if_pos hsize]
    rfl
  | some block =>
    have hdiv := div_add_mod' k chunkSize
    obtain ⟨bytes, hread, hlen, hat⟩ := @readLoop_eq b hb p 1 (k / chunkSize) _ 1 (le_refl 1)
      hmod (by
        intro j hj
        rw [lt_one_iff.mp hj, hdiv, add_zero, hblock]
        rfl)
    rw [byte, readAt, hread, hat 0 one_pos, hdiv, add_zero]

/-! ## Keys -/

theorem chunkKey_eq_iff {c' : ℕ} :
    chunkKey p c = chunkKey p' c' ↔
      p.1 = p'.1 ∧ p.2 % 2 ^ 32 = p'.2 % 2 ^ 32 ∧ c % 2 ^ 16 = c' % 2 ^ 16 := by
  constructor
  · intro h
    obtain ⟨hpiece, hchunk⟩ := append_inj' h (by rw [length_putBE, length_putBE])
    obtain ⟨hhash, hindex⟩ := append_inj' hpiece (by rw [length_putBE, length_putBE])
    exact ⟨Hash.ext hhash, putBE_eq_iff.mp hindex, putBE_eq_iff.mp hchunk⟩
  · rintro ⟨hhash, hindex, hchunk⟩
    have hindex' : putBE 4 p.2 = putBE 4 p'.2 := putBE_eq_iff.mpr hindex
    have hchunk' : putBE 2 c = putBE 2 c' := putBE_eq_iff.mpr hchunk
    rw [chunkKey, chunkKey, pieceKey, pieceKey, hhash, hindex', hchunk']

/-- The keys of the pieces' blocks are apart, for pieces of these lengths: they are not too long,
and no two of them have the same index in four bytes. -/
structure Separate (len : PieceId → ℕ) : Prop where
  short : ∀ p, len p ≤ 2 ^ 30
  indexes : ∀ h i j, 0 < len (h, i) → 0 < len (h, j) → i % 2 ^ 32 = j % 2 ^ 32 → i = j

theorem Separate.apart (h : Separate len) {stop : ℕ} (hstop : stop ≤ len p) (hk : k < len p') :
    Apart p ci stop p' (k / chunkSize) := by
  intro c₁ _ hlt hkey
  obtain ⟨hhash, hindex, hchunk⟩ := chunkKey_eq_iff.mp hkey
  have hp := h.short p
  have hp' := h.short p'
  rw [chunkSize_eq] at hlt hchunk ⊢
  refine ⟨?_, by omega⟩
  obtain ⟨ih, i⟩ := p
  obtain ⟨ih', i'⟩ := p'
  obtain rfl : ih' = ih := hhash
  rw [h.indexes ih' i' i (by omega) (by omega) hindex]

/-! ## The pieces as arrays -/

/-- A block that the write goes to has the byte `k` of the piece. -/
def SameBlock (w : Write PieceId) (p : PieceId) (k : ℕ) : Prop :=
  w.array = p ∧ ∃ j < w.data.length, (w.off + j) / chunkSize = k / chunkSize

instance (w : Write PieceId) (p : PieceId) (k : ℕ) : Decidable (SameBlock w p k) :=
  inferInstanceAs (Decidable (_ ∧ _))

theorem exists_block_iff :
    (0 < n ∧ off / chunkSize ≤ c ∧ c * chunkSize < off + n) ↔
      ∃ j < n, (off + j) / chunkSize = c := by
  have hoff := div_add_mod' off chunkSize
  have hmod := mod_lt off chunkSize_pos
  constructor
  · rintro ⟨hn, hle, hlt⟩
    rcases eq_or_lt_of_le hle with heq | hgt
    · exact ⟨0, hn, heq⟩
    · have hmul := mul_le_mul_right chunkSize hgt
      rw [succ_mul] at hmul
      refine ⟨c * chunkSize - off, by omega, ?_⟩
      rw [Nat.add_sub_cancel' (by omega), Nat.mul_div_cancel _ chunkSize_pos]
  · rintro ⟨j, hj, rfl⟩
    have hle := div_mul_le_self (off + j) chunkSize
    exact ⟨by omega, Nat.div_le_div_right (Nat.le_add_right off j), by omega⟩

/-- The database has whole blocks only. -/
def Sound (db : Db) : Prop := ∀ b, db = some b → Whole b

theorem Sound.whole (h : Sound db) : Whole (db.getD fun _ => none) := by
  cases db with
  | none =>
    intro _ _ hnone
    cases hnone
  | some b => exact h b rfl

theorem sound_writeAt (h : Sound db) (w : Write PieceId) : Sound (writeAt db w).1 := by
  intro b hb
  rw [← some.inj hb]
  exact whole_writeLoop h.whole (mod_lt _ chunkSize_pos).le

theorem byte_eq (h : Sound db) (p : PieceId) (k : ℕ) :
    byte db p k = byteOf (db.getD fun _ => none) p k := by
  cases db with
  | none => rfl
  | some b => exact byte_some (h b rfl) p k

theorem sparse_writeAt (h : Separate len) :
    Sparse Sound (fun w => w.off + w.data.length ≤ len w.array)
      (fun w p k => decide (k < len p ∧ SameBlock w p k))
      (fun db p k => if k < len p then byte db p k else none) fun db w => (writeAt db w).1 := by
  intro db w hdb hfit
  refine ⟨sound_writeAt hdb w, fun p k => ?_⟩
  dsimp only
  by_cases hk : k < len p
  · have hmod := mod_lt k chunkSize_pos
    have hoff := div_add_mod' w.off chunkSize
    have hplace := div_add_mod' k chunkSize
    rw [if_pos hk, if_pos hk, byte_eq (sound_writeAt hdb w), byte_eq hdb, byteOf, byteOf, writeAt]
    dsimp only [getD_some]
    rw [stored_writeLoop (le_refl _) (mod_lt _ chunkSize_pos) hmod
      (h.apart (by omega) hk), hoff, hplace, Write.byte]
    have htouch : (p = w.array ∧ w.data ≠ [] ∧ w.off / chunkSize ≤ k / chunkSize ∧
          k / chunkSize * chunkSize < w.off + w.data.length) ↔
        decide (k < len p ∧ SameBlock w p k) = true := by
      rw [decide_eq_true_eq, and_iff_right hk, SameBlock, ← exists_block_iff, length_pos_iff,
        eq_comm]
    have hwrite : (p = w.array ∧ w.off ≤ k) ↔ w.array = p ∧ w.off ≤ k := and_congr_left' eq_comm
    rw [if_congr htouch rfl rfl, if_congr hwrite rfl rfl]
  · have hnone : w.byte p k = none := byte_eq_none (by rintro rfl; omega)
    simp [hk, hnone]

/-- A sequence of writes, from an empty database on. -/
def run (ws : List (Write PieceId)) : Db := ws.foldl (fun db w => (writeAt db w).1) none

theorem sound_none : Sound none := fun _ h => nomatch h

theorem sound_run (ws : List (Write PieceId)) : Sound (run ws) := by
  rw [run]
  generalize hdb : (none : Db) = db
  have hs : Sound db := hdb ▸ sound_none
  clear hdb
  induction ws generalizing db with
  | nil => exact hs
  | cons w ws ih => exact ih _ (sound_writeAt hs w)

/-- The pieces are arrays: after any writes within the pieces, a read of a range whose blocks have
all been written to gives what was written last, or zeros; and no write changes a place that it does
not write to, but that a place in a block of its piece can appear, with a zero. -/
structure Flat (len : PieceId → ℕ) : Prop where
  reads : ∀ ws : List (Write PieceId), (∀ w ∈ ws, w.off + w.data.length ≤ len w.array) →
    ∀ p off n, off + n ≤ len p → (∀ k < n, ∃ w ∈ ws, SameBlock w p (off + k)) →
      ∃ bytes err, readAt (run ws) p n off = (bytes, err) ∧ (0 < n → err = none) ∧
        bytes.length = n ∧ ∀ k < n, bytes[k]? = some ((lastWritten ws p (off + k)).getD 0)
  frame : ∀ ws : List (Write PieceId), (∀ w ∈ ws, w.off + w.data.length ≤ len w.array) →
    ∀ w : Write PieceId, w.off + w.data.length ≤ len w.array →
      ∀ p k, k < len p → w.byte p k = none →
        byte (run (ws ++ [w])) p k = byte (run ws) p k ∨
          (SameBlock w p k ∧ byte (run ws) p k = none ∧ byte (run (ws ++ [w])) p k = some 0)

theorem readAt_eq (h : Sound db) (hat : ∀ k < n, (byte db p (off + k)).isSome) :
    ∃ bytes err, readAt db p n off = (bytes, err) ∧ (0 < n → err = none) ∧ bytes.length = n ∧
      ∀ k < n, bytes[k]? = byte db p (off + k) := by
  cases db with
  | none =>
    have hn : n = 0 := by
      by_contra hn
      exact absurd (hat 0 (by omega)) (by rw [byte_none]; decide)
    exact ⟨[], some .eof, rfl, by omega, hn.symm, by omega⟩
  | some b =>
    have hoff := div_add_mod' off chunkSize
    obtain ⟨bytes, hread, hlen, hbytes⟩ := @readLoop_eq b (h b rfl) p n (off / chunkSize) _ n
      (le_refl n) (mod_lt off chunkSize_pos) (by
        intro k hk
        have hsome := hat k hk
        rw [byte_some (h b rfl), byteOf, stored] at hsome
        rw [hoff]
        exact isSome_of_isSome_bind hsome)
    refine ⟨bytes, none, hread, fun _ => rfl, hlen, fun k hk => ?_⟩
    rw [hbytes k hk, hoff, byte_some (h b rfl)]

theorem byte_writeAt_same (h : Sound db) (v : UInt8)
    (hkey : chunkKey p (k / chunkSize) = chunkKey q (l / chunkSize))
    (hmod : k % chunkSize = l % chunkSize) : byte (writeAt db ⟨q, l, [v]⟩).1 p k = some v := by
  have hlt := mod_lt l chunkSize_pos
  rw [byte_eq (sound_writeAt h _), byteOf, stored, writeAt]
  dsimp only [getD_some, length_singleton]
  rw [writeLoop, if_neg (cons_ne_nil v [])]
  dsimp only [writeLoop]
  rw [Bucket.put, if_pos hkey, bind_some, hmod, getElem?_block _ q [v] hlt.le hlt,
    if_pos (Nat.le_refl _), Nat.sub_self]
  rfl

theorem not_flat_of_same (hk : k < len p) (hl : l < len q) (hne : ¬ (q = p ∧ l = k))
    (hkey : chunkKey p (k / chunkSize) = chunkKey q (l / chunkSize))
    (hmod : k % chunkSize = l % chunkSize) : ¬ Flat len := by
  intro hflat
  obtain ⟨bytes, err, hread, -, -, hbytes⟩ := hflat.reads [⟨p, k, [1]⟩, ⟨q, l, [2]⟩]
    (by simp only [forall_mem_cons, length_singleton]; exact ⟨hk, hl, by simp⟩) p k 1 hk
    (by
      intro j hj
      exact ⟨_, mem_cons_self, rfl, j, hj, rfl⟩)
  have hbyte : byte (run [⟨p, k, [1]⟩, ⟨q, l, [2]⟩]) p k = some 2 :=
    byte_writeAt_same (sound_writeAt sound_none _) 2 hkey hmod
  have hother : (⟨q, l, [2]⟩ : Write PieceId).byte p k = none := by
    refine byte_eq_none fun hq => ?_
    have hlk : l ≠ k := fun heq => hne ⟨hq, heq⟩
    rw [length_singleton]
    dsimp only
    omega
  have hlast : lastWritten [⟨p, k, [1]⟩, ⟨q, l, [2]⟩] p (k + 0) = some 1 := by
    simp only [lastWritten, add_zero, hother, none_or]
    rw [Write.byte, if_pos ⟨rfl, Nat.le_refl k⟩, Nat.sub_self]
    rfl
  rw [byte, hread, hbytes 0 one_pos, hlast] at hbyte
  exact absurd hbyte (by decide)

theorem Flat.separate (hflat : Flat len) : Separate len := by
  constructor
  · intro p
    by_contra hlong
    refine not_flat_of_same (p := p) (q := p) (k := 0) (l := 2 ^ 30) (by omega) (by omega)
      (by omega) ?_ ?_ hflat
    · rw [chunkKey_eq_iff, chunkSize_eq]
      exact ⟨rfl, rfl, by decide⟩
    · rw [chunkSize_eq]
      rfl
  · intro h i j hi hj hindex
    by_contra hne
    refine not_flat_of_same (p := (h, i)) (q := (h, j)) (k := 0) (l := 0) hi hj ?_ ?_ rfl hflat
    · rintro ⟨heq, -⟩
      exact hne (congrArg Prod.snd heq).symm
    · exact chunkKey_eq_iff.mpr ⟨rfl, hindex, rfl⟩

theorem Separate.flat (hsep : Separate len) : Flat len := by
  have hsparse := sparse_writeAt hsep
  constructor
  · intro ws hws p off n hfit hblocks
    have hview := (hsparse.run sound_none hws).2
    have hat : ∀ k < n, byte (run ws) p (off + k) = some ((lastWritten ws p (off + k)).getD 0) := by
      intro k hk
      have hin : off + k < len p := by omega
      obtain ⟨w, hw, hsame⟩ := hblocks k hk
      have hany : (ws.any fun w => decide (off + k < len p ∧ SameBlock w p (off + k))) = true :=
        any_eq_true.mpr ⟨w, hw, decide_eq_true ⟨hin, hsame⟩⟩
      have hv := hview p (off + k)
      rw [if_pos hin, if_pos hin, byte_none, hany, if_pos rfl, or_none] at hv
      rw [run, hv]
      cases lastWritten ws p (off + k) <;> rfl
    obtain ⟨bytes, err, hread, herr, hlen, hbytes⟩ := readAt_eq (sound_run ws) fun k hk => by
      rw [hat k hk]
      rfl
    exact ⟨bytes, err, hread, herr, hlen, fun k hk => (hbytes k hk).trans (hat k hk)⟩
  · intro ws hws w hw p k hk hnone
    have hrun : run (ws ++ [w]) = (writeAt (run ws) w).1 := by
      rw [run, foldl_append]
      rfl
    have hview := (hsparse (run ws) w (sound_run ws) hw).2 p k
    dsimp only at hview
    rw [if_pos hk, if_pos hk, hnone, none_or, ← hrun] at hview
    rw [hview]
    cases hb : byte (run ws) p k with
    | some v => exact .inl rfl
    | none =>
      rw [none_or]
      split
      · next htouch => exact .inr ⟨(of_decide_eq_true htouch).2, rfl, rfl⟩
      · exact .inl rfl

/-- **One array for each piece.** The storage is flat iff the keys are apart. -/
theorem flat_iff {len : PieceId → ℕ} : Flat len ↔ Separate len :=
  ⟨Flat.separate, Separate.flat⟩

/-- A thousand pieces of a megabyte for each torrent. -/
theorem flat_common : Flat fun p => if p.2 < 1000 then 2 ^ 20 else 0 := by
  refine flat_iff.mpr ⟨fun p => ?_, fun h i j hi hj hindex => ?_⟩
  · split <;> decide
  · dsimp only at hi hj
    split at hi <;> split at hj <;> omega

theorem length_zeroHash : (replicate 20 (0 : UInt8)).length = 20 := rfl

/-- The first piece of a torrent. -/
def firstPiece : PieceId := (⟨replicate 20 0, length_zeroHash⟩, 0)

/-- A write of one byte at the start of a piece, and one at `2 ^ 30`. -/
def farWrites : List (Write PieceId) := [⟨firstPiece, 0, [1]⟩, ⟨firstPiece, 2 ^ 30, [2]⟩]

/-- The second write changes the byte at the start. -/
theorem far_write_overwrites :
    lastWritten farWrites firstPiece 0 = some 1 ∧
      (readAt (run farWrites) firstPiece 1 0).1[0]? = some 2 := by
  refine ⟨by decide, byte_writeAt_same (sound_writeAt sound_none _) 2 ?_ ?_⟩
  · rw [chunkKey_eq_iff, chunkSize_eq]
    exact ⟨rfl, rfl, by decide⟩
  · rw [chunkSize_eq]
    rfl

end ReliableBT.Bolt
