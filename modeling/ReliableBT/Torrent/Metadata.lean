import ReliableBT.Lib.Slice

/-!
# The exchange of the metadata (`ut_metadata`)

A torrent that was added by its hash asks its peers for the info. The extended handshake of a peer
gives the size of the metadata (`onReadExtendedMsg`, `peerconn.go`; `setMetadataSize`,
`torrent.go`), every connection then asks for the blocks of 16 KiB that are missing
(`requestPendingMetadata`), and `gotMetadataExtensionMsg` (`client.go`) handles the messages that
come back, as well as the peer's own requests. Once all blocks are there, or when the application
gives the info (`SetInfoBytes`), `setInfoBytesLocked` checks and stores it.

The numbers in these messages are 64-bit integers of the peer's choice. They are `Int64` here and
wrap as they do in the code; an index or a slice that is out of range is a `Fault`.

* `Verdict` is what comes of checking the info: its hash, its decoding, and `setInfo`, which also
  fails if the storage cannot be opened.
* `Shuffle` is `rand.Shuffle`.
* `metadataCompletedChunks` is `none` if it is nil, which is not the same as empty
  (`haveAllMetadataPieces`).
* The info itself, the statistics and the callbacks are left out.

Results:
* `setMetadataSize_iff`: `setMetadataSize` keeps the limit **iff** the 32 low bits of the size are
  above it, or the size itself is in range and the flags of a buffer that is kept are right.
* `gotMetadataExtensionMsg_iff`: in every state that can be reached, a message is handled without a
  fault **iff** the piece number is not negative, or, for a request when the info is known, its
  offset is not.
-/

open Int64 ReliableBT.Slice ReliableBT.Ends List Option

namespace ReliableBT.Metadata

/-- `ExtendedMetadataRequestMsg` -/
structure ExtendedMetadataRequestMsg where
  piece : Int64
  totalSize : Int64
  type : Int64
  deriving DecidableEq

/-- `RequestMetadataExtensionMsgType` -/
def requestMetadataExtensionMsgType : Int64 := 0

/-- `DataMetadataExtensionMsgType` -/
def dataMetadataExtensionMsgType : Int64 := 1

/-- `RejectMetadataExtensionMsgType` -/
def rejectMetadataExtensionMsgType : Int64 := 2

/-- `maxMetadataSize` -/
def maxMetadataSize : UInt32 := 16 * 1024 * 1024

/-- `metadataPieceSize` of `misc.go` -/
def metadataPieceSize (totalSize piece : Int64) : Int64 :=
  let ret := totalSize - piece * 16384
  if 16384 < ret then 16384 else ret

/-- `PieceSize` -/
def ExtendedMetadataRequestMsg.pieceSize (d : ExtendedMetadataRequestMsg) : Int64 :=
  metadataPieceSize d.totalSize d.piece

/-- An extended message that is written to a peer: the peer's number for the extension, the
dictionary, and the data after it. -/
structure Written where
  extendedId : UInt8
  msg : ExtendedMetadataRequestMsg
  data : List UInt8
  deriving DecidableEq

/-- The part of a `PeerConn` that this is about. -/
structure Conn where
  metadataRequests : Slice Bool := .empty
  /-- `PeerExtensionIDs` of `ut_metadata`, 0 if there is none -/
  utMetadata : UInt8 := 0
  written : List Written := []

/-- The part of a `Torrent` that this is about. -/
structure Torrent where
  metadataBytes : Slice UInt8
  metadataCompletedChunks : Option (Slice Bool)
  haveInfo : Bool
  conns : List Nat
  conn : Nat → Conn

/-- An error that is returned. -/
inductive Error
  /-- `bad size` -/
  | badSize
  /-- `error unmarshalling bencode` -/
  | unmarshalling
  /-- `got unexpected piece` -/
  | unexpectedPiece (piece : Int64)
  /-- `data has bad offset in payload` -/
  | badOffset (start : Int64)
  /-- `info bytes have wrong hash` -/
  | wrongHash
  /-- `error unmarshalling info bytes` -/
  | badInfoBytes
  /-- an error of `setInfo`: `bad info`, or `error opening torrent storage` -/
  | setInfo
  /-- `unknown msg_type value` -/
  | unknownType
  deriving DecidableEq, Repr

/-- What comes of checking the bytes of an info. -/
inductive Verdict
  | wrongHash
  | badInfoBytes
  | setInfoFails
  | accepted
  deriving DecidableEq, Repr

/-- The order that `rand.Shuffle` leaves. -/
structure Shuffle where
  shuffle : List Int64 → List Int64
  perm : ∀ l, (shuffle l).Perm l

/-- A torrent without metadata. -/
def Torrent.init : Torrent := ⟨.empty, none, false, [], fun _ => {}⟩

namespace Torrent

variable (t : Torrent)

/-- A change of one connection. -/
def setConn (p : Nat) (c : Conn) : Torrent := { t with conn := Function.update t.conn p c }

/-- `len(t.metadataCompletedChunks)` -/
def completedLen : Int64 := (t.metadataCompletedChunks.getD .empty).len

/-- `metadataPieceCount` -/
def metadataPieceCount : Int64 := (t.metadataBytes.len + 16384 - 1) / 16384

/-- `haveMetadataPiece` -/
def haveMetadataPiece (piece : Int64) : Except Fault Bool :=
  if t.haveInfo then .ok (decide (16384 * piece < t.metadataBytes.len))
  else if piece < t.completedLen then (t.metadataCompletedChunks.getD .empty).get piece
  else .ok false

/-- `requestedMetadataPiece` -/
def requestedMetadataPiece (p : Nat) (index : Int64) : Except Fault Bool :=
  if index < (t.conn p).metadataRequests.len then (t.conn p).metadataRequests.get index
  else .ok false

/-- `newMetadataExtensionMessage`, written to the connection -/
def writeMessage (p : Nat) (type piece : Int64) (data : List UInt8) : Torrent :=
  let c := t.conn p
  t.setConn p { c with
    written := c.written ++ [⟨c.utMetadata, ⟨piece, t.metadataBytes.len, type⟩, data⟩] }

/-- `requestMetadataPiece` -/
def requestMetadataPiece (p : Nat) (index : Int64) : Except Fault Torrent := do
  if (t.conn p).utMetadata = 0 then return t
  if ← t.requestedMetadataPiece p index then return t
  -- `MetadataExtensionRequestMsg` leaves the total size out
  let c := t.conn p
  let written := c.written ++ [⟨c.utMetadata, ⟨index, 0, requestMetadataExtensionMsgType⟩, []⟩]
  let grown ← c.metadataRequests.grow (index + 1) false
  let metadataRequests ← grown.set index true
  return t.setConn p { c with written, metadataRequests }

/-- The blocks that `requestPendingMetadata` asks for, before they are shuffled. -/
def pending (p : Nat) : Except Fault (List Int64) :=
  (range t.metadataPieceCount.toInt.toNat).foldlM (fun pending index => do
    let index := Int64.ofNat index
    if ← t.haveMetadataPiece index then return pending
    if ← t.requestedMetadataPiece p index then return pending
    return pending ++ [index]) []

/-- `requestPendingMetadata` -/
def requestPendingMetadata (rand : Shuffle) (p : Nat) : Except Fault Torrent := do
  if t.haveInfo then return t
  if (t.conn p).utMetadata = 0 then return t
  let pending ← t.pending p
  (rand.shuffle pending).foldlM (fun t i => t.requestMetadataPiece p i) t

/-- `setMetadataSize` -/
def setMetadataSize (rand : Shuffle) (size : Int64) : Except Fault (Option Error × Torrent) := do
  if t.haveInfo then return (none, t)
  if maxMetadataSize < size.toUInt64.toUInt32 then return (some .badSize, t)
  if t.metadataBytes.len = size then return (none, t)
  let metadataBytes ← Slice.make size 0
  let metadataCompletedChunks ← Slice.make ((size + 16384 - 1) / 16384) false
  let t := { t with metadataBytes, metadataCompletedChunks := some metadataCompletedChunks }
  return (none, ← t.conns.foldlM (fun t p => t.requestPendingMetadata rand p) t)

/-- `onReadExtendedMsg`, for a handshake that was decoded: the number for `ut_metadata`, if the
peer's map has that name, and `metadata_size` -/
def onExtendedHandshake (rand : Shuffle) (p : Nat) (utMetadata : Option UInt8) (size : Int64) :
    Except Fault (Option Error × Torrent) := do
  let c := t.conn p
  let t := t.setConn p { c with utMetadata := utMetadata.getD c.utMetadata }
  let (err, t) ← (if size ≠ 0 then t.setMetadataSize rand size else .ok (none, t))
  if err.isSome then return (err, t)
  return (none, ← t.requestPendingMetadata rand p)

/-- `saveMetadataPiece` -/
def saveMetadataPiece (index : Int64) (data : List UInt8) : Except Fault Torrent := do
  if t.haveInfo then return t
  if t.completedLen ≤ index then return t
  let start := 16384 * index
  let _ ← t.metadataBytes.cut start t.metadataBytes.len
  let metadataBytes := t.metadataBytes.copyFrom start.toInt.toNat data
  let completed ← (t.metadataCompletedChunks.getD .empty).set index true
  return { t with metadataBytes, metadataCompletedChunks := some completed }

/-- `haveAllMetadataPieces` -/
def haveAllMetadataPieces : Bool :=
  t.haveInfo || match t.metadataCompletedChunks with
    | none => false
    | some chunks => chunks.elems.all id

/-- `invalidateMetadata` -/
def invalidateMetadata : Torrent :=
  { t with
    metadataCompletedChunks := t.metadataCompletedChunks.map (·.fill false), haveInfo := false }

variable (judge : Slice UInt8 → Verdict)

/-- `setInfoBytesLocked` -/
def setInfoBytesLocked (b : Slice UInt8) :
    Option Error × Torrent :=
  match judge b with
  | .wrongHash => (some .wrongHash, t)
  | .badInfoBytes => (some .badInfoBytes, t)
  | verdict =>
    let t := { t with metadataBytes := b, metadataCompletedChunks := none }
    if t.haveInfo then (none, t)
    else if verdict = .setInfoFails then (some .setInfo, t)
    else (none, { t with haveInfo := true })

/-- `maybeCompleteMetadata` -/
def maybeCompleteMetadata : Option Error × Torrent :=
  if t.haveInfo then (none, t)
  else if !t.haveAllMetadataPieces then (none, t)
  else
    let (err, t) := t.setInfoBytesLocked judge t.metadataBytes
    if err.isSome then (err, t.invalidateMetadata) else (none, t)

/-- The case `DataMetadataExtensionMsgType` of `gotMetadataExtensionMsg`, up to
`saveMetadataPiece` -/
def receiveMetadataData (p : Nat) (d : ExtendedMetadataRequestMsg)
    (payload : Slice UInt8) : Except Fault (Option Error × Torrent) := do
  if !(← t.requestedMetadataPiece p d.piece) then return (some (.unexpectedPiece d.piece), t)
  let c := t.conn p
  let metadataRequests ← c.metadataRequests.set d.piece false
  let t := t.setConn p { c with metadataRequests }
  let start := payload.len - d.pieceSize
  if start < 0 ∨ payload.len ≤ start then return (some (.badOffset start), t)
  let data ← payload.cut start payload.len
  return (none, ← t.saveMetadataPiece d.piece data.elems)

/-- The case `DataMetadataExtensionMsgType` of `gotMetadataExtensionMsg` -/
def gotMetadataData (p : Nat) (d : ExtendedMetadataRequestMsg)
    (payload : Slice UInt8) : Except Fault (Option Error × Torrent) := do
  let (err, t) ← t.receiveMetadataData p d payload
  if err.isSome then return (err, t)
  return t.maybeCompleteMetadata judge

/-- The case `RequestMetadataExtensionMsgType` of `gotMetadataExtensionMsg` -/
def gotMetadataRequest (p : Nat) (piece : Int64) : Except Fault (Option Error × Torrent) := do
  if !(← t.haveMetadataPiece piece) then
    return (none, t.writeMessage p rejectMetadataExtensionMsgType piece [])
  let start := 16384 * piece
  let data ← t.metadataBytes.cut start (start + metadataPieceSize t.metadataBytes.len piece)
  return (none, t.writeMessage p dataMetadataExtensionMsgType piece data.elems)

/-- `gotMetadataExtensionMsg`; the message is `none` if it cannot be decoded. -/
def gotMetadataExtensionMsg (p : Nat)
    (d : Option ExtendedMetadataRequestMsg) (payload : Slice UInt8) :
    Except Fault (Option Error × Torrent) :=
  match d with
  | none => .ok (some .unmarshalling, t)
  | some d =>
    if d.type = dataMetadataExtensionMsgType then t.gotMetadataData judge p d payload
    else if d.type = requestMetadataExtensionMsgType then t.gotMetadataRequest p d.piece
    else if d.type = rejectMetadataExtensionMsgType then .ok (none, t)
    else .ok (some .unknownType, t)

end Torrent

/-- What happens to the metadata of a torrent. -/
inductive Event
  /-- a connection joins -/
  | addConn (p : Nat)
  /-- a connection leaves -/
  | deleteConn (p : Nat)
  /-- `onReadExtendedMsg` with a handshake -/
  | handshake (p : Nat) (utMetadata : Option UInt8) (size : Int64) (rand : Shuffle)
  /-- `onReadExtendedMsg` with a metadata message -/
  | message (p : Nat) (d : Option ExtendedMetadataRequestMsg) (payload : Slice UInt8)
    (judge : Slice UInt8 → Verdict)
  /-- `SetInfoBytes` -/
  | setInfoBytes (b : Slice UInt8) (judge : Slice UInt8 → Verdict)

/-- One step; an error that is returned does not undo what was done before. -/
def Torrent.step (t : Torrent) : Event → Except Fault Torrent
  | .addConn p => .ok { t.setConn p {} with conns := p :: t.conns.erase p }
  | .deleteConn p => .ok { t with conns := t.conns.erase p }
  | .handshake p utMetadata size rand => Prod.snd <$> t.onExtendedHandshake rand p utMetadata size
  | .message p d payload judge => Prod.snd <$> t.gotMetadataExtensionMsg judge p d payload
  | .setInfoBytes b judge => .ok (t.setInfoBytesLocked judge b).2

/-! ## Blocks -/

/-- How many blocks of 16 KiB `n` bytes make. -/
def blocks (n : Nat) : Nat := (n + 16383) / 16384

theorem toInt_blockCount {n : Int64} {k : Nat} (hn : n.toInt = k) (hk : k ≤ maxAlloc) :
    ((n + 16384 - 1) / 16384).toInt = blocks k := by
  have hmax : maxAlloc = 281474976710656 := rfl
  have hsum : (n + 16384 - 1).toInt = (k + 16383 : Nat) := by
    rw [toInt_sub, toInt_add, hn]
    change (((k : Int) + 16384).bmod (2 ^ 64) - 1).bmod (2 ^ 64) = _
    rw [Int.bmod_eq_of_le (n := (k : Int) + 16384) (by omega) (by omega),
      Int.bmod_eq_of_le (by omega) (by omega)]
    omega
  rw [toInt_div, hsum]
  change (((k + 16383 : Nat) : Int).tdiv 16384).bmod (2 ^ 64) = _
  rw [Int.tdiv_eq_ediv_of_nonneg (Int.natCast_nonneg _), blocks]
  rw [Int.bmod_eq_of_le (by omega) (by omega)]
  omega

namespace Torrent

variable {t : Torrent} {E : Fault → Prop}

theorem toInt_metadataPieceCount (t : Torrent) :
    t.metadataPieceCount.toInt = blocks t.metadataBytes.elems.length :=
  toInt_blockCount t.metadataBytes.toInt_len t.metadataBytes.bounded

theorem blocks_le (s : Slice UInt8) : blocks s.elems.length ≤ 2 ^ 35 := by
  have hmax : s.elems.length ≤ 2 ^ 48 := s.bounded
  unfold blocks
  omega

/-! ## Asking for the blocks that are missing -/

/-- Nothing but connections differs. -/
def Same (t t' : Torrent) : Prop :=
  t'.metadataBytes = t.metadataBytes ∧
    t'.metadataCompletedChunks = t.metadataCompletedChunks ∧ t'.haveInfo = t.haveInfo

theorem Same.refl (t : Torrent) : t.Same t := ⟨rfl, rfl, rfl⟩

theorem Same.trans {t₁ t₂ t₃ : Torrent} (h : t₁.Same t₂) (h' : t₂.Same t₃) : t₁.Same t₃ :=
  ⟨h'.1.trans h.1, h'.2.1.trans h.2.1, h'.2.2.trans h.2.2⟩

theorem same_setConn (t : Torrent) (p : Nat) (c : Conn) : t.Same (t.setConn p c) := ⟨rfl, rfl, rfl⟩

variable {piece : Int64} {p : Nat} {index : Int64} {d : ExtendedMetadataRequestMsg}

/-- The answer is yes only for a block in range; a negative number is a fault without the info. -/
theorem ends_haveMetadataPiece (h : t.haveInfo = false → piece < 0 → E .indexOutOfRange) :
    Ends E (fun b => b = true →
      if t.haveInfo then 16384 * piece < t.metadataBytes.len else piece < t.completedLen)
      (t.haveMetadataPiece piece) := by
  unfold haveMetadataPiece
  by_cases hinfo : t.haveInfo = true
  · rw [if_pos hinfo, if_pos hinfo]
    exact of_decide_eq_true
  · rw [if_neg hinfo, if_neg hinfo]
    by_cases hlt : piece < t.completedLen
    · rw [if_pos hlt]
      refine imp (ends_get fun hr => h (Bool.eq_false_iff.mpr hinfo) ?_) fun _ _ _ => hlt
      exact Int64.not_le.mp fun h0 => hr ⟨h0, hlt⟩
    · rw [if_neg hlt]
      exact fun hb => absurd hb Bool.false_ne_true

theorem ends_requestedMetadataPiece (h : index < 0 → E .indexOutOfRange) :
    Ends E (fun b => b = true → index < (t.conn p).metadataRequests.len)
      (t.requestedMetadataPiece p index) := by
  unfold requestedMetadataPiece
  by_cases hlt : index < (t.conn p).metadataRequests.len
  · rw [if_pos hlt]
    refine imp (ends_get fun hr => h ?_) fun _ _ _ => hlt
    exact Int64.not_le.mp fun h0 => hr ⟨h0, hlt⟩
  · rw [if_neg hlt]
    exact fun hb => absurd hb Bool.false_ne_true

/-- The number of a block that exists. -/
def IsBlock (i : Int64) : Prop := 0 ≤ i ∧ i.toInt < 2 ^ 35

theorem ends_requestMetadataPiece (h : IsBlock index) :
    Ends E t.Same (t.requestMetadataPiece p index) := by
  have hneg : ¬ index < 0 := Int64.not_lt.mpr h.1
  have h0 : 0 ≤ index.toInt := le_iff_toInt_le.mp h.1
  have hnext : (index + 1).toInt = index.toInt + 1 := by
    rw [toInt_add]
    have hlt := h.2
    exact Int.bmod_eq_of_le (by change _ ≤ index.toInt + 1; omega)
      (by change index.toInt + 1 < _; omega)
  unfold requestMetadataPiece
  by_cases hid : (t.conn p).utMetadata = 0
  · rw [if_pos hid]
    exact Same.refl t
  · rw [if_neg hid]
    refine bind (ends_requestedMetadataPiece fun hlt => absurd hlt hneg) fun requested _ => ?_
    cases requested with
    | true => exact Same.refl t
    | false =>
      have hmax : (maxAlloc : Int) = 2 ^ 48 := rfl
      refine bind (ends_grow fun hr => absurd ?_ hr) fun grown hgrown => ?_
      · have hlt := h.2
        omega
      · have hin : index < grown.len := by
          rw [lt_iff_toInt_lt, toInt_len]
          omega
        refine bind (ends_set fun hr => absurd ⟨h.1, hin⟩ hr) fun _ _ => ?_
        exact same_setConn t p _

theorem ends_pending (t : Torrent) (p : Nat) :
    Ends E (fun l => ∀ i ∈ l, IsBlock i) (t.pending p) := by
  refine foldlM (by simp) fun l hl index hindex => ?_
  have hblock : IsBlock (ofNat index) := by
    have hcount := toInt_metadataPieceCount t
    have hblocks := blocks_le t.metadataBytes
    have hlt := mem_range.mp hindex
    have htoInt : (ofNat index).toInt = index := toInt_ofNat_of_lt (by omega)
    refine ⟨le_iff_toInt_le.mpr ?_, ?_⟩
    · rw [htoInt]
      exact Int.natCast_nonneg _
    · rw [htoInt]
      omega
  have hneg : ¬ Int64.ofNat index < 0 := Int64.not_lt.mpr hblock.1
  refine bind (ends_haveMetadataPiece fun _ hlt => absurd hlt hneg) fun have' _ => ?_
  cases have' with
  | true => exact hl
  | false =>
    refine bind (ends_requestedMetadataPiece fun hlt => absurd hlt hneg) fun requested _ => ?_
    cases requested with
    | true => exact hl
    | false =>
      intro i hi
      rcases mem_append.mp hi with hi | hi
      · exact hl i hi
      · exact mem_singleton.mp hi ▸ hblock

variable {rand : Shuffle}

theorem ends_requestPendingMetadata (t : Torrent) (p : Nat) :
    Ends E t.Same (t.requestPendingMetadata rand p) := by
  unfold requestPendingMetadata
  by_cases hinfo : t.haveInfo = true
  · rw [if_pos hinfo]
    exact Same.refl t
  · rw [if_neg hinfo]
    by_cases hid : (t.conn p).utMetadata = 0
    · rw [if_pos hid]
      exact Same.refl t
    · rw [if_neg hid]
      refine bind (ends_pending t p) fun l hl => ?_
      refine foldlM (Same.refl t) fun t' ht' i hi => ?_
      have hblock := hl i ((rand.perm l).mem_iff.mp hi)
      exact (ends_requestMetadataPiece hblock).imp fun t'' ht'' => ht'.trans ht''

/-! ## The size of the metadata -/

/-- There is one flag for each block. -/
def FlagsRight (t : Torrent) : Prop :=
  (t.metadataCompletedChunks.getD .empty).elems.length = blocks t.metadataBytes.elems.length

/-- What `setMetadataSize` has to end in: an error and the buffers as they were, or, for a size in
range, buffers of that size. It has no panic, and the buffers are all that it allocates. -/
def KeepsLimit (t : Torrent) (size : Int64) : Except Fault (Option Error × Torrent) → Prop :=
  Reaches fun r =>
    (r.1.isSome = true ∧ r.2.metadataBytes = t.metadataBytes ∧
      r.2.metadataCompletedChunks = t.metadataCompletedChunks) ∨
    (r.1 = none ∧ 0 ≤ size ∧ size.toInt ≤ maxMetadataSize.toNat ∧
      (r.2.metadataBytes.elems.length : Int) = size.toInt ∧ r.2.FlagsRight)

theorem ends_setMetadataSize_alloc (rand : Shuffle) {size : Int64} (hinfo : t.haveInfo = false)
    (hlow : ¬ maxMetadataSize < size.toUInt64.toUInt32) (hlen : t.metadataBytes.len ≠ size)
    (hE : ¬ (0 ≤ size ∧ size.toInt ≤ maxAlloc) → E .makeOutOfRange) :
    Ends E (fun r => r.1 = none ∧ 0 ≤ size ∧ (r.2.metadataBytes.elems.length : Int) = size.toInt ∧
      r.2.FlagsRight) (t.setMetadataSize rand size) := by
  unfold setMetadataSize
  rw [if_neg (Bool.eq_false_iff.mp hinfo), if_neg hlow, if_neg hlen]
  refine bind (ends_make hE) fun metadataBytes hbytes => ?_
  obtain ⟨h0, hbytes⟩ := hbytes
  have hcount := toInt_blockCount hbytes.symm metadataBytes.bounded
  have hcount0 : 0 ≤ (size + 16384 - 1) / 16384 := by
    rw [le_iff_toInt_le, hcount]
    exact Int.natCast_nonneg _
  have hcountMax : ((size + 16384 - 1) / 16384).toInt ≤ maxAlloc := by
    rw [hcount]
    exact Int.ofNat_le.mpr ((blocks_le metadataBytes).trans (by decide))
  refine bind (ends_make (absurd ⟨hcount0, hcountMax⟩)) fun chunks hchunks => ?_
  refine bind (R := fun t' => Same _ t') (foldlM (Same.refl _) ?_) fun t' ht' => ?_
  · exact fun t₁ ht₁ p _ => (ends_requestPendingMetadata t₁ p).imp fun t₂ ht₂ => ht₁.trans ht₂
  · refine ⟨rfl, h0, ?_, ?_⟩
    · rw [ht'.1]
      exact hbytes
    · rw [FlagsRight, ht'.1, ht'.2.1]
      exact Int.ofNat_inj.mp (hchunks.2.trans hcount)

/-- **When the limit is kept.** -/
theorem setMetadataSize_iff (t : Torrent) (rand : Shuffle) (size : Int64)
    (hinfo : t.haveInfo = false) :
    t.KeepsLimit size (t.setMetadataSize rand size) ↔
      maxMetadataSize < size.toUInt64.toUInt32 ∨
        (0 ≤ size ∧ size.toInt ≤ maxMetadataSize.toNat ∧
          (t.metadataBytes.len = size → t.FlagsRight)) := by
  by_cases hlow : maxMetadataSize < size.toUInt64.toUInt32
  · have heq : t.setMetadataSize rand size = .ok (some .badSize, t) := by
      rw [setMetadataSize, if_neg (Bool.eq_false_iff.mp hinfo), if_pos hlow]
      rfl
    rw [heq]
    exact ⟨fun _ => .inl hlow, fun _ => .inl ⟨rfl, rfl, rfl⟩⟩
  · by_cases hlen : t.metadataBytes.len = size
    · have heq : t.setMetadataSize rand size = .ok (none, t) := by
        rw [setMetadataSize, if_neg (Bool.eq_false_iff.mp hinfo), if_neg hlow, if_pos hlen]
        rfl
      rw [heq]
      constructor
      · rintro (⟨herr, -⟩ | ⟨-, h0, hmax, -, hflags⟩)
        · exact absurd herr Bool.false_ne_true
        · exact .inr ⟨h0, hmax, fun _ => hflags⟩
      · rintro (hlow' | ⟨h0, hmax, hflags⟩)
        · exact absurd hlow' hlow
        · exact .inr ⟨rfl, h0, hmax, hlen ▸ t.metadataBytes.toInt_len.symm, hflags hlen⟩
    · have halloc := ends_setMetadataSize_alloc rand (E := fun _ => True) hinfo hlow hlen
        fun _ => trivial
      constructor
      · intro h
        rcases hx : t.setMetadataSize rand size with e | r
        · rw [hx] at h
          exact False.elim h
        · rw [hx] at h halloc
          rcases h with ⟨herr, -⟩ | ⟨-, h0, hmax, -⟩
          · rw [halloc.1] at herr
            exact absurd herr Bool.false_ne_true
          · exact .inr ⟨h0, hmax, fun heq => absurd heq hlen⟩
      · rintro (hlow' | ⟨h0, hmax, -⟩)
        · exact absurd hlow' hlow
        · have hsmall : (maxMetadataSize.toNat : Int) ≤ maxAlloc := by decide
          refine (ends_setMetadataSize_alloc rand hinfo hlow hlen fun hr => ?_).imp fun r hr => ?_
          · exact hr ⟨h0, hmax.trans hsmall⟩
          · exact .inr ⟨hr.1, h0, hmax, hr.2.2⟩

/-- The order in which nothing is moved. -/
def noShuffle : Shuffle := ⟨id, fun _ => .refl _⟩

theorem setMetadataSize_init_kept :
    init.haveInfo = false ∧ init.KeepsLimit 16777216 (init.setMetadataSize noShuffle 16777216) :=
  ⟨rfl, (setMetadataSize_iff init noShuffle 16777216 rfl).mpr (.inr ⟨by decide, by decide,
    fun _ => rfl⟩)⟩

/-- A torrent to which the application gave an info that the storage could not be opened for. -/
def refused : Torrent :=
  (init.setInfoBytesLocked (fun _ => .setInfoFails) ⟨[0], by decide⟩).2

/-- **The limit is not kept**: a negative size panics, a size of 4 GiB is allocated, and a buffer
that is kept from an info that was refused has no flags. -/
theorem setMetadataSize_unbounded :
    FailsWith .makeOutOfRange (init.setMetadataSize noShuffle (-4294967296)) ∧
    Reaches (fun r => r.2.metadataBytes.elems.length = 4294967296)
      (init.setMetadataSize noShuffle 4294967296) ∧
    ¬ refused.KeepsLimit 1 (refused.setMetadataSize noShuffle 1) := by
  refine ⟨by decide, ?_, ?_⟩
  · refine (ends_setMetadataSize_alloc noShuffle rfl (by decide) (by decide) ?_).imp fun r hr => ?_
    · exact fun hr => hr ⟨by decide, by decide⟩
    · exact Int.ofNat_inj.mp hr.2.2.1
  · have heq : refused.setMetadataSize noShuffle 1 = .ok (none, refused) := rfl
    rw [heq]
    rintro (⟨herr, -⟩ | ⟨-, -, -, -, hflags⟩)
    · exact absurd herr Bool.false_ne_true
    · exact absurd hflags (by unfold FlagsRight; decide)

/-! ## Messages -/

/-- The flags, where there are any, are one for each block. -/
def Sound (t : Torrent) : Prop :=
  ∀ chunks, t.metadataCompletedChunks = some chunks →
    chunks.elems.length = blocks t.metadataBytes.elems.length

theorem Sound.same {t t' : Torrent} (h : t.Sound) (hsame : t.Same t') : t'.Sound := by
  intro chunks hchunks
  rw [hsame.1]
  exact h chunks (hsame.2.1.symm.trans hchunks)

theorem Sound.completedLen (h : t.Sound) :
    t.completedLen.toInt ≤ blocks t.metadataBytes.elems.length := by
  rw [Torrent.completedLen, toInt_len]
  cases hc : t.metadataCompletedChunks with
  | none => exact Int.natCast_nonneg _
  | some chunks => exact Int.ofNat_le.mpr (h chunks hc).le

theorem sound_setInfoBytesLocked (h : t.Sound) (judge : Slice UInt8 → Verdict) (b : Slice UInt8) :
    (t.setInfoBytesLocked judge b).2.Sound := by
  have hnone : ∀ info, Sound { t with
      metadataBytes := b, metadataCompletedChunks := none, haveInfo := info } :=
    fun _ _ hchunks => absurd hchunks (by simp)
  unfold setInfoBytesLocked
  cases judge b with
  | wrongHash => exact h
  | badInfoBytes => exact h
  | setInfoFails => dsimp only; split_ifs <;> exact hnone _
  | accepted => dsimp only; split_ifs <;> exact hnone _

theorem sound_invalidateMetadata (h : t.Sound) : t.invalidateMetadata.Sound := by
  intro chunks hchunks
  obtain ⟨old, hold, rfl⟩ := map_eq_some_iff.mp hchunks
  exact (length_fill old false).trans (h old hold)

variable {judge : Slice UInt8 → Verdict}

theorem sound_maybeCompleteMetadata (h : t.Sound) : (t.maybeCompleteMetadata judge).2.Sound := by
  have hset := sound_setInfoBytesLocked h judge t.metadataBytes
  unfold maybeCompleteMetadata
  by_cases hinfo : t.haveInfo = true
  · rw [if_pos hinfo]
    exact h
  · rw [if_neg hinfo]
    by_cases hall : (!t.haveAllMetadataPieces) = true
    · rw [if_pos hall]
      exact h
    · rw [if_neg hall]
      by_cases herr : (t.setInfoBytesLocked judge t.metadataBytes).1.isSome = true
      · dsimp only
        rw [if_pos herr]
        exact sound_invalidateMetadata hset
      · dsimp only
        rw [if_neg herr]
        exact hset

theorem Sound.block_start (h : t.Sound) (h0 : 0 ≤ index) (hlt : index < t.completedLen) :
    (16384 * index).toInt = 16384 * index.toInt ∧ 0 ≤ 16384 * index ∧
      16384 * index < t.metadataBytes.len := by
  have hnonneg : 0 ≤ index.toInt := le_iff_toInt_le.mp h0
  have hblock := (lt_iff_toInt_lt.mp hlt).trans_le h.completedLen
  have hbound : t.metadataBytes.elems.length ≤ 2 ^ 48 := t.metadataBytes.bounded
  unfold blocks at hblock
  have hstart : (16384 * index).toInt = 16384 * index.toInt := by
    rw [toInt_mul]
    exact Int.bmod_eq_of_le (by change _ ≤ 16384 * index.toInt; omega)
      (by change 16384 * index.toInt < _; omega)
  refine ⟨hstart, ?_, ?_⟩
  · exact le_iff_toInt_le.mpr (hstart ▸ Int.mul_nonneg (by decide) hnonneg)
  · rw [lt_iff_toInt_lt, hstart, toInt_len]
    omega

theorem ends_saveMetadataPiece (h : t.Sound) (h0 : 0 ≤ index) (data : List UInt8) :
    Ends E Sound (t.saveMetadataPiece index data) := by
  unfold saveMetadataPiece
  by_cases hinfo : t.haveInfo = true
  · rw [if_pos hinfo]
    exact h
  · rw [if_neg hinfo]
    by_cases hlen : t.completedLen ≤ index
    · rw [if_pos hlen]
      exact h
    · rw [if_neg hlen]
      have hlt : index < t.completedLen := Int64.not_le.mp hlen
      obtain ⟨-, hstart, hend⟩ := h.block_start h0 hlt
      refine bind (ends_cut (absurd ⟨hstart, Int64.le_of_lt hend, Int64.le_refl _⟩)) fun _ _ => ?_
      refine bind (ends_set (absurd ⟨h0, hlt⟩)) fun completed hcompleted => ?_
      intro chunks hchunks
      obtain rfl := some.inj hchunks
      have hcopy : (16384 * index).toInt.toNat ≤ t.metadataBytes.elems.length := by
        rw [lt_iff_toInt_lt, toInt_len] at hend
        omega
      rw [length_copyFrom hcopy, hcompleted]
      cases hc : t.metadataCompletedChunks with
      | none =>
        rw [Torrent.completedLen, hc] at hlt
        exact absurd hlt (Int64.not_lt.mpr h0)
      | some old => exact h old hc

theorem requestedMetadataPiece_neg (h : index < 0) :
    t.requestedMetadataPiece p index = .error .indexOutOfRange := by
  have hlt := Int64.lt_of_lt_of_le h (len_nonneg (t.conn p).metadataRequests)
  rw [requestedMetadataPiece, if_pos hlt, get_neg h]

theorem ends_receiveMetadataData (h : t.Sound) (p : Nat) (payload : Slice UInt8)
    (h0 : 0 ≤ d.piece) : Ends E (fun r => r.2.Sound) (t.receiveMetadataData p d payload) := by
  unfold receiveMetadataData
  have hneg : ¬ d.piece < 0 := Int64.not_lt.mpr h0
  refine bind (ends_requestedMetadataPiece (absurd · hneg)) fun requested hrequested => ?_
  cases requested with
  | false => exact h
  | true =>
    refine bind (ends_set (absurd ⟨h0, hrequested rfl⟩)) fun requests _ => ?_
    have hconn : (t.setConn p { t.conn p with metadataRequests := requests }).Sound :=
      h.same (same_setConn t p _)
    by_cases hoffset : payload.len - d.pieceSize < 0 ∨ payload.len ≤ payload.len - d.pieceSize
    · rw [if_pos hoffset]
      exact hconn
    · rw [if_neg hoffset]
      obtain ⟨hstart, hend⟩ := not_or.mp hoffset
      have hcut := ends_cut (E := E) (s := payload)
        (absurd ⟨Int64.not_lt.mp hstart, Int64.le_of_lt (Int64.not_le.mp hend), Int64.le_refl _⟩)
      refine bind hcut fun data _ => ?_
      exact bind (ends_saveMetadataPiece hconn h0 data.elems) fun t' ht' => ht'

variable {payload : Slice UInt8}

theorem ends_gotMetadataData (h : t.Sound) (p : Nat) (h0 : 0 ≤ d.piece) :
    Ends E (fun r => r.2.Sound) (t.gotMetadataData judge p d payload) := by
  refine bind (ends_receiveMetadataData h p payload h0) fun r hr => ?_
  obtain ⟨err, t'⟩ := r
  dsimp only
  split_ifs
  · exact hr
  · exact sound_maybeCompleteMetadata hr

theorem receiveMetadataData_neg {payload : Slice UInt8} (h : d.piece < 0) :
    t.receiveMetadataData p d payload = .error .indexOutOfRange := by
  rw [receiveMetadataData, requestedMetadataPiece_neg h]
  rfl

theorem gotMetadataData_neg {judge : Slice UInt8 → Verdict} {payload : Slice UInt8}
    (h : d.piece < 0) : t.gotMetadataData judge p d payload = .error .indexOutOfRange := by
  rw [gotMetadataData, receiveMetadataData_neg h]
  rfl

theorem block_in_range (bytes : Slice UInt8) (h0 : 0 ≤ 16384 * piece)
    (hlt : 16384 * piece < bytes.len) :
    16384 * piece ≤ 16384 * piece + metadataPieceSize bytes.len piece ∧
      16384 * piece + metadataPieceSize bytes.len piece ≤ bytes.len := by
  have hmul : piece * 16384 = 16384 * piece := Int64.mul_comm _ _
  unfold metadataPieceSize
  rw [hmul]
  generalize 16384 * piece = start at h0 hlt
  have hbound : bytes.elems.length ≤ 2 ^ 48 := bytes.bounded
  rw [le_iff_toInt_le] at h0
  rw [lt_iff_toInt_lt, toInt_len] at hlt
  change 0 ≤ start.toInt at h0
  have hleft : (bytes.len - start).toInt = bytes.elems.length - start.toInt := by
    rw [toInt_sub, toInt_len]
    exact Int.bmod_eq_of_le (by omega) (by omega)
  have hadd : ∀ n : Int64, 0 ≤ n.toInt → n.toInt ≤ bytes.elems.length - start.toInt →
      start ≤ start + n ∧ start + n ≤ bytes.len := by
    intro n hn hn'
    have hsum : (start + n).toInt = start.toInt + n.toInt := by
      rw [toInt_add]
      exact Int.bmod_eq_of_le (by omega) (by omega)
    rw [le_iff_toInt_le, le_iff_toInt_le, hsum, toInt_len]
    omega
  dsimp only
  by_cases hbig : 16384 < bytes.len - start
  · rw [if_pos hbig]
    rw [lt_iff_toInt_lt, hleft] at hbig
    exact hadd 16384 (by decide) hbig.le
  · rw [if_neg hbig]
    exact hadd _ (by omega) hleft.le

theorem ends_gotMetadataRequest (h : t.Sound) (p : Nat)
    (h0 : 0 ≤ if t.haveInfo then 16384 * piece else piece) :
    Ends E (fun r => r.2.Sound) (t.gotMetadataRequest p piece) := by
  have hsent : ∀ type data, (t.writeMessage p type piece data).Sound :=
    fun _ _ => h.same (same_setConn t p _)
  unfold gotMetadataRequest
  refine bind (ends_haveMetadataPiece fun hinfo hneg => ?_) fun had hin => ?_
  · rw [hinfo] at h0
    exact absurd h0 (Int64.not_le.mpr hneg)
  · cases had with
    | false => exact hsent _ _
    | true =>
      have hblock : 0 ≤ 16384 * piece ∧ 16384 * piece < t.metadataBytes.len := by
        have hin' := hin rfl
        by_cases hinfo : t.haveInfo = true
        · rw [if_pos hinfo] at h0 hin'
          exact ⟨h0, hin'⟩
        · rw [if_neg hinfo] at h0 hin'
          exact (h.block_start h0 hin').2
      obtain ⟨hstart, hend⟩ := block_in_range t.metadataBytes hblock.1 hblock.2
      refine bind (ends_cut (absurd ⟨hblock.1, hstart, hend⟩)) fun data _ => ?_
      exact hsent _ _

theorem gotMetadataRequest_neg (h : (if t.haveInfo then 16384 * piece else piece) < 0) :
    ∃ e, t.gotMetadataRequest p piece = .error e := by
  by_cases hinfo : t.haveInfo = true
  · rw [if_pos hinfo] at h
    have hlt := Int64.lt_of_lt_of_le h (len_nonneg t.metadataBytes)
    have hhave : t.haveMetadataPiece piece = .ok true := by
      rw [haveMetadataPiece, if_pos hinfo, decide_eq_true hlt]
    refine ⟨.sliceOutOfRange, ?_⟩
    rw [gotMetadataRequest, hhave]
    change (cut _ (16384 * piece) _ >>= _) = _
    rw [cut_neg h]
    rfl
  · rw [if_neg hinfo] at h
    have hlt : piece < t.completedLen := Int64.lt_of_lt_of_le h (len_nonneg _)
    have hhave : t.haveMetadataPiece piece = .error .indexOutOfRange := by
      rw [haveMetadataPiece, if_neg hinfo, if_pos hlt, get_neg h]
    refine ⟨.indexOutOfRange, ?_⟩
    rw [gotMetadataRequest, hhave]
    rfl

/-- The piece number is not negative in a data message; in a request it is not, or, if the info is
known, the offset computed from it is not. -/
def InRange (t : Torrent) (d : Option ExtendedMetadataRequestMsg) : Prop :=
  ∀ m ∈ d,
    (m.type = dataMetadataExtensionMsgType → 0 ≤ m.piece) ∧
    (m.type = requestMetadataExtensionMsgType → 0 ≤ if t.haveInfo then 16384 * m.piece else m.piece)

theorem ends_gotMetadataExtensionMsg (h : t.Sound) (p : Nat)
    {d : Option ExtendedMetadataRequestMsg} (hin : t.InRange d) :
    Ends E (fun r => r.2.Sound) (t.gotMetadataExtensionMsg judge p d payload) := by
  unfold gotMetadataExtensionMsg
  cases d with
  | none => exact h
  | some d =>
    obtain ⟨hdata, hrequest⟩ := hin d rfl
    dsimp only
    split_ifs with htype htype'
    · exact ends_gotMetadataData h p (hdata htype)
    · exact ends_gotMetadataRequest h p (hrequest htype')
    · exact h
    · exact h

theorem gotMetadataExtensionMsg_fault (judge : Slice UInt8 → Verdict) (p : Nat)
    {d : Option ExtendedMetadataRequestMsg} (payload : Slice UInt8) (hout : ¬ t.InRange d) :
    ∃ e, t.gotMetadataExtensionMsg judge p d payload = .error e := by
  cases d with
  | none => exact absurd (fun _ hm => nomatch hm) hout
  | some d =>
    unfold gotMetadataExtensionMsg
    by_cases hdata : d.type = dataMetadataExtensionMsgType
    · have hneg : d.piece < 0 := by
        refine Int64.not_le.mp fun h0 => hout fun m hm => ?_
        obtain rfl := some.inj hm
        exact ⟨fun _ => h0, fun hrequest => absurd (hdata.symm.trans hrequest) (by decide)⟩
      exact ⟨_, (if_pos hdata).trans (gotMetadataData_neg hneg)⟩
    · by_cases hrequest : d.type = requestMetadataExtensionMsgType
      · have hneg : (if t.haveInfo then 16384 * d.piece else d.piece) < 0 := by
          refine Int64.not_le.mp fun h0 => hout fun m hm => ?_
          obtain rfl := some.inj hm
          exact ⟨fun htype => absurd htype hdata, fun _ => h0⟩
        obtain ⟨e, he⟩ := gotMetadataRequest_neg (t := t) (p := p) hneg
        exact ⟨e, by rw [← he]; exact (if_neg hdata).trans (if_pos hrequest)⟩
      · refine absurd (fun m hm => ?_) hout
        obtain rfl := some.inj hm
        exact ⟨fun htype => absurd htype hdata, fun htype => absurd htype hrequest⟩

/-! ## Runs -/

theorem sound_init : init.Sound := fun _ hchunks => nomatch hchunks

theorem FlagsRight.sound (h : t.FlagsRight) : t.Sound := by
  intro chunks hchunks
  rw [FlagsRight, hchunks] at h
  exact h

variable {size : Int64}

theorem sound_setMetadataSize (h : t.Sound) :
    Gives (fun r => r.2.Sound) (t.setMetadataSize rand size) := by
  by_cases hinfo : t.haveInfo = true
  · rw [setMetadataSize, if_pos hinfo]
    exact h
  · by_cases hlow : maxMetadataSize < size.toUInt64.toUInt32
    · rw [setMetadataSize, if_neg hinfo, if_pos hlow]
      exact h
    · by_cases hlen : t.metadataBytes.len = size
      · rw [setMetadataSize, if_neg hinfo, if_neg hlow, if_pos hlen]
        exact h
      · exact (ends_setMetadataSize_alloc rand (Bool.eq_false_iff.mpr hinfo) hlow hlen
          fun _ => trivial).imp fun r hr => hr.2.2.2.sound

theorem sound_onExtendedHandshake (h : t.Sound) (p : Nat)
    (utMetadata : Option UInt8) :
    Gives (fun r => r.2.Sound) (t.onExtendedHandshake rand p utMetadata size) := by
  unfold onExtendedHandshake
  have hconn := h.same
    (same_setConn t p { t.conn p with utMetadata := utMetadata.getD (t.conn p).utMetadata })
  have hpending : ∀ t' : Torrent, t'.Sound →
      Gives (fun r => r.2.Sound)
        (do return ((none : Option Error), ← t'.requestPendingMetadata rand p)) :=
    fun t' ht' => (ends_requestPendingMetadata t' p).bind fun t'' ht'' => ht'.same ht''
  refine bind (R := fun r : Option Error × Torrent => r.2.Sound) ?_ fun r hr => ?_
  · by_cases hsize : size ≠ 0
    · rw [if_pos hsize]
      exact sound_setMetadataSize hconn
    · rw [if_neg hsize]
      exact hconn
  · obtain ⟨err, t'⟩ := r
    cases err with
    | none => exact hpending t' hr
    | some err => exact hr

theorem sound_step (h : t.Sound) (e : Event) : Gives Sound (t.step e) := by
  cases e with
  | addConn p => exact h.same (same_setConn t p {})
  | deleteConn p => exact h
  | handshake p utMetadata size rand =>
    exact (sound_onExtendedHandshake h p utMetadata).map
  | message p d payload judge =>
    by_cases hin : t.InRange d
    · exact (ends_gotMetadataExtensionMsg h p hin).map
    · obtain ⟨e, he⟩ := gotMetadataExtensionMsg_fault judge p payload hin
      rw [step, he]
      exact trivial
  | setInfoBytes b judge => exact sound_setInfoBytesLocked h judge b

theorem sound_run {events : List Event} {t : Torrent} (h : run step init events = .ok t) :
    t.Sound := by
  have hends := Meets.ends (E := fun _ => True) (C := fun _ _ => True) (I := Sound)
    (fun _ e ht _ => sound_step ht e) (Meets.of_forall (fun _ _ => trivial) events) sound_init
  rw [h] at hends
  exact hends

/-- **When a message is handled without a fault**, in every state that a run can reach. -/
theorem gotMetadataExtensionMsg_iff (events : List Event) (t : Torrent)
    (h : run step init events = .ok t) (judge : Slice UInt8 → Verdict) (p : Nat)
    (d : Option ExtendedMetadataRequestMsg) (payload : Slice UInt8) :
    Reaches (fun _ => True) (t.gotMetadataExtensionMsg judge p d payload) ↔ t.InRange d := by
  constructor
  · intro hok
    by_contra hout
    obtain ⟨e, he⟩ := gotMetadataExtensionMsg_fault judge p payload hout
    rw [he] at hok
    exact hok
  · intro hin
    exact (ends_gotMetadataExtensionMsg (sound_run h) p hin).imp fun _ _ => trivial

/-- A connection says that the metadata has two bytes, and is asked for them. -/
def blockAsked : List Event := [.addConn 1, .handshake 1 (some 1) 2 noShuffle]

theorem gotMetadataExtensionMsg_blockAsked :
    Reaches (fun t => Reaches (· = true) (t.requestedMetadataPiece 1 0) ∧
        Reaches (fun _ => True) (t.gotMetadataExtensionMsg (fun _ => .accepted) 1
          (some ⟨0, 2, dataMetadataExtensionMsgType⟩) ⟨[5, 6], by decide⟩))
      (run step init blockAsked) := by
  have hasked : Reaches (fun t => Reaches (· = true) (t.requestedMetadataPiece 1 0))
      (run step init blockAsked) := by decide
  refine hasked.elim_eq (fun _ _ he => he) fun t ht hrequested => ⟨hrequested, ?_⟩
  refine (gotMetadataExtensionMsg_iff blockAsked t ht _ 1 _ _).mpr fun m hm => ?_
  obtain rfl := some.inj hm
  exact ⟨fun _ => by decide, fun htype => absurd htype (by decide)⟩

/-- A torrent whose info, of one byte, is known. -/
def known : Torrent := (init.setInfoBytesLocked (fun _ => .accepted) ⟨[0], by decide⟩).2

/-- **A negative piece number is a fault**, in a data message and in a request, before and after
the info is known. -/
theorem gotMetadataExtensionMsg_negative :
    FailsWith .indexOutOfRange (init.gotMetadataExtensionMsg (fun _ => .accepted) 0
      (some ⟨-1, 0, dataMetadataExtensionMsgType⟩) .empty) ∧
    FailsWith .indexOutOfRange (init.gotMetadataExtensionMsg (fun _ => .accepted) 0
      (some ⟨-1, 0, requestMetadataExtensionMsgType⟩) .empty) ∧
    run step init [.setInfoBytes ⟨[0], by decide⟩ fun _ => .accepted] = .ok known ∧
    FailsWith .sliceOutOfRange (known.gotMetadataExtensionMsg (fun _ => .accepted) 0
      (some ⟨-1, 0, requestMetadataExtensionMsgType⟩) .empty) := by
  refine ⟨by decide, by decide, rfl, by decide⟩

end Torrent

end ReliableBT.Metadata
