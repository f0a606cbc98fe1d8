import Mathlib

/-!
# Smart banning (`smartban.go`, `smartban/smartban.go`)

The hash of every block that a peer sends is kept under the request index of the block. When a piece
is hashed its data goes through a `blockCheckingWriter` as well, which cuts the data into chunks
again and looks up who sent a chunk with another hash. The data arrives in pieces of any lengths, as
the storage reads it, so the writer keeps what does not fill a chunk in a buffer. The last chunk of
a piece may be short; `Flush` checks it.

A torrent has no chunk size of zero, with which the loops of the writer would not end.

* `Checked`: the writer after the first `n` chunks of the data, said by the data alone.
* `badPeers_eq`: the peers found are those with another hash recorded for some chunk, whatever the
  lengths of the writes.
-/

open List Nat

namespace ReliableBT.SmartBan

/-! ## The cache -/

section Cache

variable {Peer BlockKey Hash : Type} [DecidableEq Peer] [DecidableEq BlockKey]

/-- `smartban.Cache` -/
structure Cache (Peer BlockKey Hash : Type) where
  hash : List UInt8 → Hash
  blocks : AList fun _ : BlockKey => AList fun _ : Peer => Hash

namespace Cache

/-- `Init` -/
def init (hash : List UInt8 → Hash) : Cache Peer BlockKey Hash := ⟨hash, ∅⟩

/-- `me.blocks[key]`, where a key that is not there has the nil map -/
def peersAt (me : Cache Peer BlockKey Hash) (key : BlockKey) : AList fun _ : Peer => Hash :=
  (me.blocks.lookup key).getD ∅

/-- The hash that is recorded of a peer's block. -/
def recorded (me : Cache Peer BlockKey Hash) (key : BlockKey) (peer : Peer) : Option Hash :=
  (me.peersAt key).lookup peer

/-- `RecordBlock` -/
def recordBlock (me : Cache Peer BlockKey Hash) (peer : Peer) (key : BlockKey)
    (data : List UInt8) : Cache Peer BlockKey Hash :=
  { me with blocks := me.blocks.insert key ((me.peersAt key).insert peer (me.hash data)) }

/-- `CheckBlock` -/
def checkBlock [DecidableEq Hash] (me : Cache Peer BlockKey Hash) (key : BlockKey)
    (data : List UInt8) : List Peer :=
  ((me.peersAt key).entries.filter fun entry => entry.2 ≠ me.hash data).map (·.1)

theorem mem_checkBlock [DecidableEq Hash] {me : Cache Peer BlockKey Hash} {key : BlockKey}
    {data : List UInt8} {peer : Peer} :
    peer ∈ me.checkBlock key data ↔
      ∃ hash, me.recorded key peer = some hash ∧ hash ≠ me.hash data := by
  unfold checkBlock recorded
  constructor
  · intro h
    obtain ⟨⟨_, hash⟩, hmem, rfl⟩ := mem_map.mp h
    obtain ⟨hentry, hne⟩ := mem_filter.mp hmem
    exact ⟨hash, AList.mem_lookup_iff.mpr hentry, of_decide_eq_true hne⟩
  · rintro ⟨hash, hlookup, hne⟩
    exact mem_map.mpr ⟨⟨peer, hash⟩, mem_filter.mpr
      ⟨AList.mem_lookup_iff.mp hlookup, decide_eq_true hne⟩, rfl⟩

end Cache

end Cache

/-! ## The writer -/

variable {Peer Hash : Type} [DecidableEq Peer] [DecidableEq Hash]

/-- `RequestIndex` -/
abbrev RequestIndex := UInt32

/-- `blockCheckingWriter` -/
structure BlockCheckingWriter (Peer Hash : Type) where
  cache : Cache Peer RequestIndex Hash
  requestIndex : RequestIndex
  /-- Peers that did not match blocks written now. -/
  badPeers : Finset Peer
  blockBuffer : List UInt8
  chunkSize : ℕ
  chunkSize_pos : 0 < chunkSize

/-- `smartBanBlockCheckingWriter`, for the piece with the given first request index -/
def smartBanBlockCheckingWriter (cache : Cache Peer RequestIndex Hash)
    (pieceRequestIndexOffset : RequestIndex) (chunkSize : ℕ) (hpos : 0 < chunkSize) :
    BlockCheckingWriter Peer Hash where
  cache := cache
  requestIndex := pieceRequestIndexOffset
  badPeers := ∅
  blockBuffer := []
  chunkSize := chunkSize
  chunkSize_pos := hpos

namespace BlockCheckingWriter

/-- `checkBlock` -/
def checkBlock (me : BlockCheckingWriter Peer Hash) : BlockCheckingWriter Peer Hash :=
  let b := me.blockBuffer.take me.chunkSize
  { me with
    blockBuffer := me.blockBuffer.drop me.chunkSize
    badPeers := (me.cache.checkBlock me.requestIndex b).foldl (fun bad peer => insert peer bad)
      me.badPeers
    requestIndex := me.requestIndex + 1 }

theorem length_checkBlock (me : BlockCheckingWriter Peer Hash) :
    me.checkBlock.blockBuffer.length = me.blockBuffer.length - me.chunkSize :=
  length_drop

/-- `checkFullBlocks` -/
def checkFullBlocks (me : BlockCheckingWriter Peer Hash) : BlockCheckingWriter Peer Hash :=
  if me.chunkSize ≤ me.blockBuffer.length then me.checkBlock.checkFullBlocks else me
termination_by me.blockBuffer.length
decreasing_by
  have := me.chunkSize_pos
  rw [length_checkBlock]
  omega

/-- `Write`, with the number of bytes written -/
def write (me : BlockCheckingWriter Peer Hash) (b : List UInt8) :
    ℕ × BlockCheckingWriter Peer Hash :=
  (b.length, { me with blockBuffer := me.blockBuffer ++ b }.checkFullBlocks)

/-- `Flush` -/
def flush (me : BlockCheckingWriter Peer Hash) : BlockCheckingWriter Peer Hash :=
  if me.blockBuffer.length ≠ 0 then me.checkBlock.flush else me
termination_by me.blockBuffer.length
decreasing_by
  have := me.chunkSize_pos
  rw [length_checkBlock]
  omega

end BlockCheckingWriter

/-- The part of `hashPiece` that finds the peers with other blocks, when the storage writes the
content of the piece in the given parts. -/
def differingPeers (cache : Cache Peer RequestIndex Hash) (pieceRequestIndexOffset : RequestIndex)
    (chunkSize : ℕ) (hpos : 0 < chunkSize) (parts : List (List UInt8)) : Finset Peer :=
  let smartBanWriter := smartBanBlockCheckingWriter cache pieceRequestIndexOffset chunkSize hpos
  (parts.foldl (fun w b => (w.write b).2) smartBanWriter).flush.badPeers

/-! ## What the writer has checked -/

/-- The bytes of a chunk; the last one may be short. -/
def chunk (content : List UInt8) (chunkSize k : ℕ) : List UInt8 :=
  (content.drop (k * chunkSize)).take chunkSize

/-- The cache has another hash for the peer's block than that of the chunk. -/
def Differs (cache : Cache Peer RequestIndex Hash) (first : RequestIndex) (content : List UInt8)
    (chunkSize : ℕ) (peer : Peer) (k : ℕ) : Prop :=
  ∃ hash, cache.recorded (first + UInt32.ofNat k) peer = some hash ∧
    hash ≠ cache.hash (chunk content chunkSize k)

theorem chunk_append {content : List UInt8} {chunkSize k n : ℕ} (hk : k < n)
    (hn : n * chunkSize ≤ content.length) (more : List UInt8) :
    chunk (content ++ more) chunkSize k = chunk content chunkSize k := by
  have hend : (k + 1) * chunkSize ≤ content.length :=
    (mul_le_mul_right chunkSize hk).trans hn
  rw [succ_mul] at hend
  unfold chunk
  rw [drop_append_of_le_length (by omega), take_append_of_le_length]
  rw [length_drop]
  omega

section Checked

variable (cache : Cache Peer RequestIndex Hash) (first : RequestIndex) (chunkSize : ℕ)

/-- The writer has got `content` and has checked its first `n` chunks, none of them empty. -/
structure Checked (content : List UInt8) (n : ℕ) (w : BlockCheckingWriter Peer Hash) : Prop where
  cacheEq : w.cache = cache
  sizeEq : w.chunkSize = chunkSize
  index : w.requestIndex = first + UInt32.ofNat n
  buffer : w.blockBuffer = content.drop (n * chunkSize)
  nonempty : ∀ k < n, k * chunkSize < content.length
  bad : ∀ peer, peer ∈ w.badPeers ↔ ∃ k < n, Differs cache first content chunkSize peer k

end Checked

namespace Checked

variable {cache : Cache Peer RequestIndex Hash} {first : RequestIndex} {chunkSize n : ℕ}
  {content : List UInt8} {w : BlockCheckingWriter Peer Hash}

omit [DecidableEq Hash] in
theorem start (hpos : 0 < chunkSize) :
    Checked cache first chunkSize [] 0
      (smartBanBlockCheckingWriter cache first chunkSize hpos) where
  cacheEq := rfl
  sizeEq := rfl
  index := (UInt32.add_zero first).symm
  buffer := drop_nil.symm
  nonempty k hk := absurd hk k.not_lt_zero
  bad peer := by simp [smartBanBlockCheckingWriter]

omit [DecidableEq Hash] in
theorem lt_length (h : Checked cache first chunkSize content n w) (hne : w.blockBuffer ≠ []) :
    n * chunkSize < content.length := by
  rw [h.buffer] at hne
  exact not_le.mp fun hle => hne (drop_eq_nil_of_le hle)

theorem checkBlock (h : Checked cache first chunkSize content n w) (hne : w.blockBuffer ≠ []) :
    Checked cache first chunkSize content (n + 1) w.checkBlock where
  cacheEq := h.cacheEq
  sizeEq := h.sizeEq
  index := by
    change w.requestIndex + 1 = _
    rw [h.index, UInt32.ofNat_add, UInt32.add_assoc]
    rfl
  buffer := by
    change w.blockBuffer.drop w.chunkSize = _
    rw [h.buffer, h.sizeEq, drop_drop, succ_mul]
  nonempty k hk := by
    rcases Nat.lt_succ_iff_lt_or_eq.mp hk with hlt | rfl
    · exact h.nonempty k hlt
    · exact h.lt_length hne
  bad peer := by
    have hblock : w.blockBuffer.take w.chunkSize = chunk content chunkSize n := by
      rw [h.buffer, h.sizeEq, chunk]
    have hfold : ∀ (l : List Peer) (bad : Finset Peer),
        peer ∈ l.foldl (fun bad peer => insert peer bad) bad ↔ peer ∈ bad ∨ peer ∈ l := by
      intro l
      induction l with
      | nil => simp
      | cons p l ih =>
        intro bad
        rw [foldl_cons, ih, Finset.mem_insert, mem_cons]
        tauto
    change peer ∈ foldl _ _ _ ↔ _
    rw [hfold, h.bad, Cache.mem_checkBlock, hblock, h.cacheEq, h.index]
    change _ ∨ Differs cache first content chunkSize peer n ↔ _
    simp only [Nat.lt_succ_iff_lt_or_eq, or_and_right, exists_or, exists_eq_left]

omit [DecidableEq Hash] in
theorem append (h : Checked cache first chunkSize content n w)
    (hfull : n * chunkSize ≤ content.length) (b : List UInt8) :
    Checked cache first chunkSize (content ++ b) n
      { w with blockBuffer := w.blockBuffer ++ b } where
  cacheEq := h.cacheEq
  sizeEq := h.sizeEq
  index := h.index
  buffer := by
    change w.blockBuffer ++ b = _
    rw [h.buffer, drop_append_of_le_length hfull]
  nonempty k hk := (h.nonempty k hk).trans_le (by simp)
  bad peer := by
    refine (h.bad peer).trans (exists_congr fun k => and_congr_right fun hk => ?_)
    unfold Differs
    rw [chunk_append hk hfull]

theorem checkFullBlocks (h : Checked cache first chunkSize content n w)
    (hfull : n * chunkSize ≤ content.length) :
    ∃ n', n' * chunkSize ≤ content.length ∧
      Checked cache first chunkSize content n' w.checkFullBlocks := by
  fun_induction BlockCheckingWriter.checkFullBlocks w generalizing n with
  | case1 w hle ih =>
    have hne : w.blockBuffer ≠ [] := by
      have := w.chunkSize_pos
      exact ne_nil_of_length_pos (by omega)
    refine ih (h.checkBlock hne) ?_
    rw [h.buffer, h.sizeEq, length_drop] at hle
    rw [succ_mul]
    omega
  | case2 w hle => exact ⟨n, hfull, h⟩

theorem flush (h : Checked cache first chunkSize content n w) :
    ∃ n', content.length ≤ n' * chunkSize ∧ Checked cache first chunkSize content n' w.flush := by
  fun_induction BlockCheckingWriter.flush w generalizing n with
  | case1 w hlen ih => exact ih (h.checkBlock (ne_nil_of_length_pos (by omega)))
  | case2 w hlen =>
    refine ⟨n, ?_, h⟩
    rw [h.buffer, length_drop] at hlen
    omega

theorem writes (h : Checked cache first chunkSize content n w)
    (hfull : n * chunkSize ≤ content.length) (parts : List (List UInt8)) :
    ∃ n', Checked cache first chunkSize (content ++ parts.flatten) n'
      (parts.foldl (fun w b => (w.write b).2) w) := by
  induction parts generalizing content n w with
  | nil => exact ⟨n, by simpa using h⟩
  | cons b parts ih =>
    obtain ⟨n', hfull', h'⟩ := (h.append hfull b).checkFullBlocks (hfull.trans (by simp))
    rw [flatten_cons, ← append_assoc]
    exact ih h' hfull'

end Checked

/-- **Smart-ban detection is exact**: however the content is cut into writes, the peers found are
those for which the cache has another hash than that of the chunk, for some chunk. -/
theorem badPeers_eq (cache : Cache Peer RequestIndex Hash) (first : RequestIndex) (chunkSize : ℕ)
    (hpos : 0 < chunkSize) (parts : List (List UInt8)) :
    (differingPeers cache first chunkSize hpos parts : Set Peer) =
      {peer | ∃ k, k * chunkSize < parts.flatten.length ∧ ∃ hash,
        cache.recorded (first + UInt32.ofNat k) peer = some hash ∧
          hash ≠ cache.hash ((parts.flatten.drop (k * chunkSize)).take chunkSize)} := by
  have hstart : Checked cache first chunkSize [] 0 _ := Checked.start hpos
  obtain ⟨m, hwritten⟩ := hstart.writes (by simp) parts
  obtain ⟨n, hend, hflushed⟩ := hwritten.flush
  rw [nil_append] at hend hflushed
  ext peer
  refine (hflushed.bad peer).trans (exists_congr fun k => and_congr_left fun _ => ?_)
  -- the chunks up to the end are those that are not empty
  refine ⟨hflushed.nonempty k, fun hk => ?_⟩
  exact Nat.lt_of_mul_lt_mul_right (hk.trans_le hend)

/-- A piece of three bytes with chunks of two, written in parts of one byte and of two: the peer
`1` sent both chunks as they are, the peer `2` another second chunk. -/
def exampleCache : Cache ℕ RequestIndex (List UInt8) :=
  ((((Cache.init id).recordBlock 1 7 [10, 11]).recordBlock 1 8 [12]).recordBlock 2 8 [13])

theorem badPeers_exampleCache :
    2 ∈ differingPeers exampleCache 7 2 (by decide) [[10], [11, 12]] ∧
      1 ∉ differingPeers exampleCache 7 2 (by decide) [[10], [11, 12]] := by
  have h := badPeers_eq exampleCache 7 2 (by decide) [[10], [11, 12]]
  constructor
  · rw [← Finset.mem_coe, h]
    exact ⟨1, by decide, [13], by decide, by decide⟩
  · rw [← Finset.mem_coe, h]
    rintro ⟨k, hk, hash, hrecorded, hne⟩
    have hk : k = 0 ∨ k = 1 := by
      simp only [flatten_cons, flatten_nil, length_append, length_cons, length_nil] at hk
      omega
    rcases hk with rfl | rfl
    · exact hne (Option.some.inj (hrecorded.symm.trans (by decide)))
    · exact hne (Option.some.inj (hrecorded.symm.trans (by decide)))

end ReliableBT.SmartBan
