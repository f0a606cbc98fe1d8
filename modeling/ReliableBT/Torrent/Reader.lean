import ReliableBT.Torrent.Runs

/-!
# Readers (`reader.go`, `t.go`, `file.go`, `torrent.go`)

A reader gives the application the data of a part of the torrent, its window: a file
(`File.NewReader`) or all of the data (`Torrent.NewReader`). `Read` waits until the data at the
reader's position is available, reads it from storage and moves the position; `Seek` sets the
position.

`available` counts the bytes that can be read, over the chunks of the torrent, and knows the bounds
of the torrent but not those of the window, `readOnceAt` only checks that the position is below the
window's end, and `Seek` takes any position. So a `Read` into a buffer that is longer than the rest
of a file goes on into the next file, and after a `Seek` to a negative position a `Read` gives the
end of the file before.

The lock is taken anew each time a `Read` looks for data, and storage is read without it: what a
`Read` finds each time is part of the call (`Round`), so that every state of the torrent can be met
there. A byte that was read is represented by its position in the torrent. Positions are `int64`,
and `Seek` wraps around (`i64`); no other computation can while the data is shorter than `2 ^ 63`
bytes.

* `reader_demand`: the pieces a reader wants are those with a byte in the part that it wants.
* `readOnceAt_spec`: what `Read` returns is the data from the reader's position on, and ends where
  the torrent ends.
* `Reader.stays_within`: in a run where no `Seek` goes to a negative position, and each `Read` fits
  into the rest of the window or the window ends with the torrent, readers stay in their window.
-/

open Nat List

namespace ReliableBT

namespace Info

variable (info : Info) (cs : Nat)

/-- `torrentOffsetRequest`: the request that the offset is in -/
def offsetRequest (offset : ℤ) : Option Request :=
  if offset < 0 ∨ info.totalLength ≤ offset then none
  else
    let index := u32 (offset.toNat / info.pieceLength)
    let begin := u32 (offset.toNat % info.pieceLength / cs * cs)
    let pieceLeft := u32 (info.pieceLength - begin)
    let length := if pieceLeft < u32 cs then pieceLeft else u32 cs
    let torrentLeft := info.totalLength - index * info.pieceLength - begin
    some ⟨index, begin, if torrentLeft < length then u32 torrentLeft else length⟩

/-- `torrentRequestOffset`, none for the panic -/
def requestOffset (r : Request) : Option Nat :=
  let off := r.index * info.pieceLength + r.begin
  if off < info.totalLength then some off else none

/-- `byteRegionPieces` -/
def byteRegionPieces (off size : ℤ) : Nat × Nat :=
  if info.totalLength ≤ off then (0, 0)
  else
    let size := if off < 0 then size + off else size
    let off := if off < 0 then 0 else off
    if size ≤ 0 then (0, 0)
    else
      (off.toNat / info.pieceLength,
        min ((off.toNat + size.toNat + info.pieceLength - 1) / info.pieceLength) info.numPieces)

end Info

/-! ## Reading from storage -/

/-- The errors of a storage. -/
inductive StorageErr where
  | eof
  /-- `os.ErrInvalid` -/
  | invalid
  | other (code : Nat)
  deriving DecidableEq

/-- The errors of `Read`. -/
inductive ReadErr where
  | eof
  | unexpectedEOF
  /-- `torrent closed` -/
  | torrentClosed
  /-- `ctx.Err()` -/
  | context
  /-- `torrent data downloading disabled` -/
  | dataDownloadDisabled
  /-- `torrent networking disabled` -/
  | networkingDisabled
  /-- `reading from closed torrent: %w` -/
  | closedTorrent (err : Option StorageErr)
  deriving DecidableEq

/-- Why a `Read` has no answer. -/
inductive ReadStop where
  /-- the call still waits, or still looks for data -/
  | blocked
  /-- `invalid Request` -/
  | invalidRequest
  /-- `t.pieces[i]` out of range -/
  | indexOutOfRange
  /-- a piece length of zero -/
  | divideByZero
  /-- `b[:max]` with a negative bound, in `LimitLen` -/
  | sliceOutOfRange
  /-- storage gave more bytes than there was room for -/
  | tooManyBytes
  /-- `io.Copy will get stuck` -/
  | stuck
  /-- the reader's pieces begin elsewhere -/
  | readerPieces
  /-- `expected error` -/
  | expectedError
  deriving DecidableEq

/-- What `ReadAt` of a storage returns. -/
structure PieceRead where
  n : Nat
  err : Option StorageErr
  deriving DecidableEq

/-- The `n` bytes of the torrent from `off` on. -/
def bytesFrom (off : ℤ) (n : Nat) : List ℤ := (range n).map fun k : Nat => off + k

namespace Info

variable (info : Info)

/-- `int(off / PieceLength)`, rounded to zero -/
def pieceIndexAt (off : ℤ) : Except ReadStop ℤ :=
  if info.pieceLength = 0 then .error .divideByZero else .ok (off.tdiv info.pieceLength)

/-- The bounds check of `t.pieces[i]`. -/
def checkPieceIndex (i : ℤ) : Except ReadStop Unit :=
  require (0 ≤ i ∧ i < info.numPieces) .indexOutOfRange

/-- `storage.Piece.ReadAt` on piece `i`, into a buffer of `len` bytes -/
def pieceReadAt (i len : Nat) (off : ℤ) (res : PieceRead) : Except ReadStop PieceRead :=
  if off < 0 then .ok ⟨0, some .invalid⟩
  else if info.metaPieceLength i ≤ off then .ok ⟨0, some .eof⟩
  else
    let len := min len (info.metaPieceLength i - off.toNat)
    if len = 0 then .ok ⟨0, none⟩
    else if len < res.n then .error .tooManyBytes
    else if res.n = 0 ∧ res.err = none then .error .stuck
    else .ok res

/-- `readAt`: the bytes read, and the error of the last `ReadAt` -/
def readAt :
    List PieceRead → Nat → ℤ → Option StorageErr → Except ReadStop (List ℤ × Option StorageErr)
  | _, 0, _, err => .ok ([], err)
  | [], _ + 1, _, _ => .error .blocked
  | res :: reads, len + 1, off, _ => do
    let i ← info.pieceIndexAt off
    info.checkPieceIndex i
    let res ← info.pieceReadAt i.toNat (len + 1) (off - i * info.pieceLength) res
    if res.n = 0 then return ([], res.err)
    else
      let (bytes, err) ← readAt reads (len + 1 - res.n) (off + res.n) res.err
      return (bytesFrom off res.n ++ bytes, err)

end Info

/-! ## Readers -/

/-- A part of the torrent's data. -/
structure Window (info : Info) where
  offset : Nat
  length : Nat
  inside : offset + length ≤ info.totalLength

/-- `Torrent.NewReader` -/
def Window.whole (info : Info) : Window info := ⟨0, info.totalLength, by rw [Nat.zero_add]⟩

theorem file_inside (info : Info) (k : Nat) :
    info.fileOffset k + info.fileLengths.getD k 0 ≤ info.totalLength := by
  have hcut := sum_take_add_sum_drop info.fileLengths k
  have hdrop : info.fileLengths.getD k 0 ≤ (info.fileLengths.drop k).sum := by
    rw [getD_eq_getElem?_getD, ← head?_drop]
    cases info.fileLengths.drop k with
    | nil => exact zero_le _
    | cons n ns => simp
  rw [Info.fileOffset, Info.totalLength]
  omega

/-- `File.NewReader` -/
def Window.file (info : Info) (k : Nat) : Window info :=
  ⟨info.fileOffset k, info.fileLengths.getD k 0, file_inside info k⟩

/-- `defaultReadaheadFunc` -/
def defaultReadaheadFunc (contiguousReadStartPos currentPos : ℤ) : ℤ :=
  i64 (currentPos - contiguousReadStartPos)

/-- `reader`, of a torrent with this info -/
structure Reader (info : Info) where
  window : Window info
  readaheadFunc : Option (ℤ → ℤ → ℤ) := some defaultReadaheadFunc
  readahead : ℤ := 0
  pos : ℤ := 0
  contiguousReadStartPos : ℤ := 0
  pieces : Nat × Nat := (0, 0)
  reading : Bool := false
  responsive : Bool := false

/-- What ends the `select` of `waitAvailable`. -/
inductive Wake where
  | closed
  | ctxDone
  | dataDownloadDisallowed
  | networkingOff
  | dontWait
  | readerCond
  deriving DecidableEq

/-- An iteration of `waitAvailable`: the torrent when the lock is held, and the channel that is
taken if nothing is available. -/
structure Look (info : Info) where
  torrent : Torrent
  hasInfo : torrent.info = some info
  wake : Wake

/-- An iteration of `readOnceAt`: its looks for data, the results of the storage, and is the torrent
closed after a failed read, without and with the lock? -/
structure Round (info : Info) where
  looks : List (Look info)
  reads : List PieceRead
  closed : Bool := false
  closedLocked : Bool := false

namespace Reader

variable {info : Info}

variable (r : Reader info)

/-- `torrentOffset`, at the reader's position -/
def torrentOffset : ℤ := r.window.offset + r.pos

/-- The loop of `available`, with fuel. -/
def availableLoop (r : Reader info) (t : Torrent) : Nat → ℤ → ℤ → ℤ → Except ReadStop ℤ
  | 0, _, _, _ => .error .blocked
  | fuel + 1, off, max, ret =>
    -- `ret` must not exceed the original `max`
    if max ≤ 0 then .ok (if max < 0 then ret + max else ret)
    else
      match info.offsetRequest t.cfg.chunkSize off with
      | none => .ok ret
      | some req =>
        if !r.responsive && !t.pieceComplete req.index then .ok ret
        else if !t.haveChunk req.index req.begin then .ok ret
        else
          match info.requestOffset req with
          | none => .error .invalidRequest
          | some start =>
            let len1 : ℤ := req.length - (off - start)
            r.availableLoop t fuel (off + len1) (max - len1) (ret + len1)

/-- `available`, at the reader's position -/
def available (t : Torrent) (fuel : Nat) (max : ℤ) : Except ReadStop ℤ :=
  r.availableLoop t fuel r.torrentOffset max 0

/-- `waitAvailable`, at the reader's position: `readOnceAt` calls it with `wait` each time, since it
returns after the first byte -/
def waitAvailable (r : Reader info) (fuel wanted : Nat) :
    List (Look info) → Option ReadErr → Except ReadStop (ℤ × Option ReadErr)
  | [], _ => .error .blocked
  | look :: looks, err => do
    let avail ← r.available look.torrent fuel wanted
    info.checkPieceIndex (← info.pieceIndexAt r.torrentOffset)
    if avail ≠ 0 then return (avail, err)
    else
      match look.wake with
      | .closed => return (0, some .torrentClosed)
      | .ctxDone => return (0, some .context)
      -- the only case that sets the error and does not return
      | .dataDownloadDisallowed => r.waitAvailable fuel wanted looks (some .dataDownloadDisabled)
      | .networkingOff => return (0, some .networkingDisabled)
      -- a nil channel is never taken
      | .dontWait => if wanted = 0 then return (0, err) else r.waitAvailable fuel wanted looks err
      | .readerCond => r.waitAvailable fuel wanted looks err

/-- `missinggo.LimitLen` -/
def limitLen (len : Nat) (max : ℤ) : Except ReadStop Nat :=
  if max < len then if max < 0 then .error .sliceOutOfRange else .ok max.toNat else .ok len

/-- The loop of `readOnceAt`, for a buffer of `len` bytes. -/
def readRounds (r : Reader info) (fuel len : Nat) :
    List (Round info) → Except ReadStop (List ℤ × Option ReadErr)
  | [] => .error .blocked
  | round :: rounds => do
    let (avail, err) ← r.waitAvailable fuel len round.looks none
    if avail = 0 then return ([], err)
    else
      let firstPieceIndex ← info.pieceIndexAt r.torrentOffset
      let len1 ← limitLen len avail
      let (bytes, err) ← info.readAt round.reads len1 r.torrentOffset none
      if bytes ≠ [] then return (bytes, none)
      else if round.closed then return ([], some (.closedTorrent err))
      else
        require (round.closedLocked ∨ (r.pieces.1 : ℤ) = firstPieceIndex) .readerPieces
        r.readRounds fuel len rounds

/-- `readOnceAt`, at the reader's position -/
def readOnceAt (fuel len : Nat) (rounds : List (Round info)) :
    Except ReadStop (List ℤ × Option ReadErr) :=
  if r.window.length ≤ r.pos then .ok ([], some .eof) else r.readRounds fuel len rounds

/-- `piecesUncached` -/
def piecesUncached : Nat × Nat :=
  let ra :=
    match r.readaheadFunc with
    | none => r.readahead
    | some f => f r.contiguousReadStartPos r.pos
  let ra := if ra < 1 then 1 else ra
  let ra := if r.reading then ra else 0
  let left := i64 (r.window.length - r.pos)
  let ra := if left < ra then left else ra
  info.byteRegionPieces (i64 r.torrentOffset) ra

/-- `posChanged`; the torrent is told of the new pieces (`Torrent.readerMoved`) -/
def posChanged : Reader info := { r with pieces := r.piecesUncached }

/-- `newReader` -/
def new (window : Window info) : Reader info := posChanged { window }

/-- What `ReadContext` does before it reads into a buffer of `len` bytes. -/
def beginRead (len : Nat) : Reader info :=
  if 0 < len then { r with reading := true }.posChanged else r

/-- What `ReadContext` does after it has read `n` bytes. -/
def advance (n : Nat) : Reader info := { r with pos := r.pos + n }.posChanged

/-- The error of `ReadContext` with some bytes, at the new position. -/
def readErr (err : Option ReadErr) : Option ReadErr :=
  if r.window.length ≤ r.pos then some .eof
  else if err = some .eof then some .unexpectedEOF
  else err

/-- `ReadContext` -/
def read (fuel len : Nat) (rounds : List (Round info)) :
    Except ReadStop (Reader info × List ℤ × Option ReadErr) := do
  let (bytes, err) ← (r.beginRead len).readOnceAt fuel len rounds
  if bytes = [] then
    require (err ≠ none ∨ len = 0) .expectedError
    return (r.beginRead len, [], err)
  else
    let r := (r.beginRead len).advance bytes.length
    return (r, bytes, r.readErr err)

/-- The new position of `Seek`; another `whence` is bad. -/
def target (off whence : ℤ) : Option ℤ :=
  if whence = 0 then some off
  else if whence = 1 then some (i64 (r.pos + off))
  else if whence = 2 then some (i64 (r.window.length + off))
  else none

/-- `Seek`: the position it returns, none with the error `bad whence` -/
def seek (off whence : ℤ) : Reader info × Option ℤ :=
  match r.target off whence with
  | none => (r, none)
  | some newPos =>
    if newPos ≠ r.pos then
      ({ r with reading := false, pos := newPos, contiguousReadStartPos := newPos }.posChanged,
        some newPos)
    else (r, some newPos)

end Reader

/-! ## The pieces of a reader -/

theorem Info.byteRegionPieces_valid (info : Info) (off size : ℤ) :
    info.byteRegionPieces off size = (0, 0) ∨
      ((info.byteRegionPieces off size).1 < (info.byteRegionPieces off size).2 ∧
        (info.byteRegionPieces off size).2 ≤ info.numPieces) := by
  rw [byteRegionPieces]
  split
  · exact .inl rfl
  next hoff =>
  extract_lets size' off'
  split
  · exact .inl rfl
  next hsize =>
  by_cases hpl : info.pieceLength = 0
  · simp [hpl]
  have hpos := pos_of_ne_zero hpl
  have hnum := lt_div_mul_add (a := info.totalLength + info.pieceLength - 1) hpos
  rw [Info.numPieces_eq hpl] at hnum
  by_cases hzero : info.totalLength = 0
  · -- an offset below zero, in a torrent without data
    have hoff' : off' = 0 := if_pos (by omega)
    have hnone : info.numPieces = 0 := by
      rw [← Info.numPieces_eq hpl, hzero]
      exact div_eq_of_lt (by omega)
    simp [hoff', hnone]
  · have hlt : off'.toNat < info.totalLength := by
      simp only [off']
      split <;> omega
    have hend := lt_div_mul_add (a := off'.toNat + size'.toNat + info.pieceLength - 1) hpos
    refine .inr ⟨lt_min ?_ ?_, min_le_right _ _⟩ <;> rw [div_lt_iff_lt_mul hpos] <;> omega

theorem Info.mem_byteRegionPieces {info : Info} (hpl : info.pieceLength ≠ 0) (off size : ℤ)
    (i : Nat) : ((info.byteRegionPieces off size).1 ≤ i ∧ i < (info.byteRegionPieces off size).2) ↔
      ∃ k : Nat, k < info.totalLength ∧ k / info.pieceLength = i ∧ off ≤ k ∧ k < off + size := by
  have hpos := pos_of_ne_zero hpl
  rw [byteRegionPieces]
  split
  · refine iff_of_false (fun h => not_lt_zero _ h.2) ?_
    rintro ⟨k, hk⟩
    omega
  next hoff =>
  extract_lets size' off'
  -- the region without what is below zero
  have hregion : ∀ k : Nat, off ≤ k ∧ k < off + size ↔ off' ≤ k ∧ k < off' + size' := by
    intro k
    simp only [off', size']
    split <;> omega
  have hoff' : 0 ≤ off' ∧ (off' < info.totalLength ∨ off' = 0) := by
    simp only [off']
    split <;> omega
  simp only [hregion]
  split
  · refine iff_of_false (fun h => not_lt_zero _ h.2) ?_
    rintro ⟨k, hk⟩
    omega
  next hsize =>
  have hfirst : off'.toNat / info.pieceLength ≤ i ↔
      off'.toNat < i * info.pieceLength + info.pieceLength := by
    rw [← Nat.lt_succ_iff, Nat.div_lt_iff_lt_mul hpos, Nat.succ_mul]
  have hend : ∀ n, i < n / info.pieceLength ↔ i * info.pieceLength + info.pieceLength ≤ n := by
    intro n
    rw [lt_iff_add_one_le, le_div_iff_mul_le hpos, succ_mul]
  rw [lt_min_iff, hfirst, hend]
  constructor
  · rintro ⟨hlo, hhi, hnum⟩
    have hstart := Info.piece_start hpl hnum
    refine ⟨max (i * info.pieceLength) off'.toNat, by omega, ?_, by omega, by omega⟩
    exact Nat.div_eq_of_lt_le (Nat.le_max_left _ _) (by rw [Nat.succ_mul]; omega)
  · rintro ⟨k, hk, rfl, hlo, hhi⟩
    have hdiv := div_mul_le_self k info.pieceLength
    have hmod := lt_div_mul_add (a := k) hpos
    refine ⟨by omega, by omega, ?_⟩
    rw [← Info.numPieces_eq hpl]
    exact div_lt_roundUp hpos hk

theorem Reader.piecesUncached_eq {info : Info} (r : Reader info) (hlen : info.totalLength < 2 ^ 63)
    (hreading : r.reading = true) (hpos : 0 ≤ r.pos) (hin : r.pos < r.window.length) :
    ∃ ra, 1 ≤ ra ∧ ra ≤ r.window.length - r.pos ∧
      r.piecesUncached = info.byteRegionPieces (r.window.offset + r.pos) ra := by
  have hinside := r.window.inside
  have hi64 : ∀ n : ℤ, 0 ≤ n → n < 2 ^ 63 → i64 n = n := fun n h0 h =>
    Int.bmod_eq_of_le (by omega) (by omega)
  unfold piecesUncached
  extract_lets ra₀ ra₁ ra₂ left ra
  have hleft : left = r.window.length - r.pos := hi64 _ (by omega) (by omega)
  have h₁ : 1 ≤ ra₁ := by
    simp only [ra₁]
    split <;> omega
  have h₂ : ra₂ = ra₁ := if_pos hreading
  refine ⟨ra, ?_, ?_, ?_⟩
  · simp only [ra]
    split <;> omega
  · simp only [ra]
    split <;> omega
  · rw [torrentOffset, hi64 _ (by omega) (by omega)]

variable {off : ℤ}

theorem length_bytesFrom (n : Nat) : (bytesFrom off n).length = n := by
  simp [bytesFrom]

theorem bytesFrom_add (m n : Nat) :
    bytesFrom off (m + n) = bytesFrom off m ++ bytesFrom (off + m) n := by
  simp [bytesFrom, range_add, add_assoc]

theorem ends_any {ε α : Type} (x : Except ε α) : Gives (fun _ => True) x := by
  cases x <;> trivial

namespace Info

variable {info : Info} {cs : Nat}

theorem offsetRequest_spec {off : ℤ} {req : Request} (h : info.offsetRequest cs off = some req) :
    ∃ start, info.requestOffset req = some start ∧ (start : ℤ) ≤ off ∧ off < info.totalLength ∧
      start + req.length ≤ info.totalLength := by
  rw [offsetRequest] at h
  split at h
  · cases h
  next hoff =>
  obtain ⟨k, rfl⟩ : ∃ k : Nat, off = k := ⟨off.toNat, by omega⟩
  have hk : k < info.totalLength := by omega
  have hindex : u32 (k / info.pieceLength) * info.pieceLength ≤ k / info.pieceLength *
      info.pieceLength := mul_le_mul_right _ (u32_le _)
  have hbegin : u32 (k % info.pieceLength / cs * cs) ≤ k % info.pieceLength :=
    (u32_le _).trans (div_mul_le_self _ _)
  have hdm := div_add_mod' k info.pieceLength
  cases h
  simp only [Int.toNat_natCast, requestOffset]
  generalize (if u32 (info.pieceLength - u32 (k % info.pieceLength / cs * cs)) < u32 cs then
    u32 (info.pieceLength - u32 (k % info.pieceLength / cs * cs)) else u32 cs) = length
  set start := u32 (k / info.pieceLength) * info.pieceLength +
    u32 (k % info.pieceLength / cs * cs) with hstart
  have hle : start ≤ k := by omega
  refine ⟨start, if_pos (by omega), by omega, by omega, ?_⟩
  rw [Nat.sub_sub, ← hstart]
  split
  · next hleft =>
    have := u32_le (info.totalLength - start)
    omega
  · next hleft => omega

theorem pieceReadAt_spec (i len : Nat) (off : ℤ) (res : PieceRead) :
    Gives (fun res' => res'.n ≤ len) (info.pieceReadAt i len off res) := by
  rw [pieceReadAt]
  extract_lets len'
  have hle : len' ≤ len := min_le_left _ _
  split_ifs with _ _ _ hn
  · exact zero_le _
  · exact zero_le _
  · exact zero_le _
  · trivial
  · trivial
  · exact (not_lt.mp hn).trans hle

/-- **What storage gives** is the data from the offset on. -/
theorem readAt_spec (reads : List PieceRead) (len : Nat) (off : ℤ) (err : Option StorageErr) :
    Gives (fun p => p.1.length ≤ len ∧ p.1 = bytesFrom off p.1.length)
      (info.readAt reads len off err) := by
  induction reads generalizing len off err with
  | nil =>
    cases len with
    | zero => exact ⟨le_rfl, rfl⟩
    | succ len => trivial
  | cons res reads ih =>
    cases len with
    | zero => exact ⟨le_rfl, rfl⟩
    | succ len =>
      rw [readAt]
      refine (ends_any _).bind fun i _ => (ends_any _).bind fun _ _ =>
        (pieceReadAt_spec _ _ _ _).bind fun res' hres => ?_
      by_cases hn : res'.n = 0
      · rw [if_pos hn]
        exact ⟨zero_le _, rfl⟩
      · rw [if_neg hn]
        refine (ih _ _ _).bind fun p hp => ?_
        obtain ⟨hlen, hbytes⟩ := hp
        have hall : bytesFrom off res'.n ++ p.1 = bytesFrom off (res'.n + p.1.length) := by
          rw [bytesFrom_add, ← hbytes]
        rw [ends_pure, hall, length_bytesFrom]
        exact ⟨by omega, rfl⟩

end Info

namespace Reader

variable {info : Info}

theorem availableLoop_spec (r : Reader info) (t : Torrent) (fuel : Nat) {off max ret : ℤ}
    (hoff : off ≤ info.totalLength) :
    Gives (fun avail => avail ≤ ret + max ∧ avail ≤ ret + (info.totalLength - off))
      (r.availableLoop t fuel off max ret) := by
  induction fuel generalizing off max ret with
  | zero => trivial
  | succ fuel ih =>
    rw [availableLoop]
    by_cases hmax : max ≤ 0
    · rw [if_pos hmax]
      refine ends_ok.mpr ?_
      split_ifs <;> omega
    · rw [if_neg hmax]
      split
      · exact ⟨by omega, by omega⟩
      · next req hreq =>
        obtain ⟨start, hstart, hle, -, hend⟩ := Info.offsetRequest_spec hreq
        split_ifs
        · exact ⟨by omega, by omega⟩
        · exact ⟨by omega, by omega⟩
        · rw [hstart]
          refine (ih (by omega)).imp fun avail h => ?_
          omega

variable {r : Reader info}

theorem waitAvailable_spec (hpos : r.pos < r.window.length) (fuel wanted : Nat)
    (looks : List (Look info)) (err : Option ReadErr) :
    Gives (fun p => p.1 ≤ (wanted : ℤ) ∧ p.1 ≤ info.totalLength - r.torrentOffset)
      (r.waitAvailable fuel wanted looks err) := by
  have hinside := r.window.inside
  have hoff : r.torrentOffset < info.totalLength := by rw [torrentOffset]; omega
  induction looks generalizing err with
  | nil => trivial
  | cons look looks ih =>
    have hzero : (0 : ℤ) ≤ wanted ∧ 0 ≤ info.totalLength - r.torrentOffset := by omega
    rw [waitAvailable]
    refine (r.availableLoop_spec look.torrent fuel hoff.le).bind fun avail havail =>
      (ends_any _).bind fun i _ => (ends_any _).bind fun _ _ => ?_
    rw [zero_add, zero_add] at havail
    split
    · exact havail
    · split
      · exact hzero
      · exact hzero
      · exact ih _
      · exact hzero
      · split
        · exact hzero
        · exact ih _
      · exact ih _

theorem limitLen_spec (len : Nat) (max : ℤ) :
    Gives (fun len1 => len1 ≤ len ∧ (len1 : ℤ) ≤ max) (limitLen len max) := by
  rw [limitLen]
  split_ifs
  · trivial
  · exact ⟨by omega, by omega⟩
  · exact ⟨le_rfl, by omega⟩

/-- The bytes are the data from the position of the reader on, not more than the buffer takes and
not past the end of the torrent; the position was inside the window. -/
structure ReadFrom (r : Reader info) (len : Nat) (bytes : List ℤ) : Prop where
  bytes_eq : bytes = bytesFrom r.torrentOffset bytes.length
  fits : bytes.length ≤ len
  ends : bytes ≠ [] → r.torrentOffset + bytes.length ≤ info.totalLength
  below : bytes ≠ [] → r.pos < r.window.length

theorem readFrom_nil (r : Reader info) (len : Nat) : ReadFrom r len [] :=
  ⟨rfl, zero_le _, fun h => absurd rfl h, fun h => absurd rfl h⟩

variable {rounds : List (Round info)} {fuel len : Nat}

theorem readRounds_spec (hpos : r.pos < r.window.length) :
    Gives (fun p => ReadFrom r len p.1) (r.readRounds fuel len rounds) := by
  induction rounds with
  | nil => trivial
  | cons round rounds ih =>
    rw [readRounds]
    refine (waitAvailable_spec hpos fuel len round.looks none).bind fun p hp => ?_
    dsimp only
    split
    · exact readFrom_nil r len
    · refine (ends_any _).bind fun first _ => (limitLen_spec len p.1).bind fun len1 hlen1 =>
        (Info.readAt_spec _ _ _ _).bind fun q hq => ?_
      obtain ⟨hlen, hbytes⟩ := hq
      split
      · exact ⟨hbytes, hlen.trans hlen1.1, fun _ => by dsimp only; omega, fun _ => hpos⟩
      · split
        · exact readFrom_nil r len
        · exact Ends.require (fun _ => ih) fun _ => trivial

/-- **What is read** is the data from the reader's position on, and ends where the torrent ends. -/
theorem readOnceAt_spec (r : Reader info) :
    Gives (fun p => ReadFrom r len p.1) (r.readOnceAt fuel len rounds) := by
  rw [readOnceAt]
  split
  · exact readFrom_nil r len
  · next h => exact readRounds_spec (not_le.mp h)

/-! ## Calls and runs -/

/-- The calls of the application; a `Read` comes with what it finds. -/
inductive Call (info : Info) where
  | seek (off whence : ℤ)
  | read (len fuel : Nat) (rounds : List (Round info))
  | setResponsive (responsive : Bool)
  | setReadahead (readahead : ℤ)
  | setReadaheadFunc (f : Option (ℤ → ℤ → ℤ))

/-- What a call returns. -/
inductive Answer where
  /-- `Seek`: the new position, none with an error -/
  | sought (newPos : Option ℤ)
  /-- `Read`: the bytes and the error -/
  | got (bytes : List ℤ) (err : Option ReadErr)
  | done

/-- A call, with the reader after it. -/
def call (r : Reader info) : Call info → Except ReadStop (Reader info × Answer)
  | .seek off whence => .ok ((r.seek off whence).1, .sought (r.seek off whence).2)
  | .read len fuel rounds => do
    let (r, bytes, err) ← r.read fuel len rounds
    return (r, .got bytes err)
  | .setResponsive responsive => .ok ({ r with responsive }, .done)
  | .setReadahead readahead =>
    .ok ({ r with readahead, readaheadFunc := none }.posChanged, .done)
  | .setReadaheadFunc f => .ok ({ r with readaheadFunc := f }.posChanged, .done)

/-- The reader after a call. -/
def step (r : Reader info) (c : Call info) : Except ReadStop (Reader info) := Prod.fst <$> r.call c

/-- A `Read` gives the bytes of the window at the position, and does not move past the window's end;
a `Seek` to a negative position has an error and leaves the position. -/
def Right (r : Reader info) : Call info → Reader info → Answer → Prop
  | .seek off whence, r', .sought newPos =>
    ∀ p ∈ r.target off whence, p < 0 → newPos = none ∧ r'.pos = r.pos
  | .read _ _ _, r', .got bytes _ =>
    (∀ (i : Nat) (b : ℤ), bytes[i]? = some b → b = r.torrentOffset + i ∧
      (r.window.offset : ℤ) ≤ b ∧ b < r.window.offset + r.window.length) ∧
    (r'.pos = r.pos ∨ r'.pos ≤ r.window.length)
  | _, _, _ => True

/-- Whatever the call returns is right. -/
def Stays (r : Reader info) (c : Call info) : Prop :=
  Ends (fun _ => True) (fun p => r.Right c p.1 p.2) (r.call c)

/-- A `Seek` goes to no negative position; a `Read` starts at the window's end or behind it, or fits
into the rest of the window, or the window ends with the torrent. -/
def Within (r : Reader info) : Call info → Prop
  | .seek off whence => ∀ p ∈ r.target off whence, 0 ≤ p
  | .read len _ _ => r.window.length ≤ r.pos ∨ r.pos + len ≤ r.window.length ∨
      r.window.offset + r.window.length = info.totalLength
  | _ => True

instance Within.decidable (r : Reader info) : ∀ c, Decidable (r.Within c)
  | .seek off whence => inferInstanceAs (Decidable (∀ p ∈ r.target off whence, 0 ≤ p))
  | .read _ _ _ => inferInstanceAs (Decidable (_ ∨ _ ∨ _))
  | .setResponsive _ => .isTrue trivial
  | .setReadahead _ => .isTrue trivial
  | .setReadaheadFunc _ => .isTrue trivial

@[simp] theorem beginRead_window (r : Reader info) (len : Nat) :
    (r.beginRead len).window = r.window := by
  rw [beginRead]
  split <;> rfl

@[simp] theorem beginRead_pos (r : Reader info) (len : Nat) : (r.beginRead len).pos = r.pos := by
  rw [beginRead]
  split <;> rfl

theorem read_spec (r : Reader info) :
    Gives (fun p => ReadFrom r len p.2.1 ∧ p.1.pos = r.pos + p.2.1.length)
      (r.read fuel len rounds) := by
  have hread : ∀ {bytes}, ReadFrom (r.beginRead len) len bytes → ReadFrom r len bytes := by
    rintro bytes ⟨h₁, h₂, h₃, h₄⟩
    simp only [torrentOffset, beginRead_window, beginRead_pos] at h₁ h₃ h₄
    exact ⟨h₁, h₂, h₃, h₄⟩
  rw [read]
  refine (readOnceAt_spec _).bind fun p hp => ?_
  dsimp only
  split
  · refine Ends.require (fun _ => ⟨readFrom_nil r len, ?_⟩) fun _ => trivial
    simp
  · exact ⟨hread hp, by rw [← beginRead_pos r len]; rfl⟩

theorem target_cases (r : Reader info) (off whence : ℤ) :
    (r.target off whence = none ∧ r.seek off whence = (r, none)) ∨
      ∃ p, r.target off whence = some p ∧ (r.seek off whence).1.pos = p ∧
        (r.seek off whence).2 = some p := by
  rw [seek]
  cases h : r.target off whence with
  | none => exact .inl ⟨rfl, rfl⟩
  | some p =>
    refine .inr ⟨p, rfl, ?_⟩
    dsimp only
    split
    · exact ⟨rfl, rfl⟩
    · next hp => exact ⟨(not_not.mp hp).symm, rfl⟩

variable {c : Call info}

theorem pos_nonneg_step (r : Reader info) (hpos : 0 ≤ r.pos) (h : r.Within c) :
    Gives (fun r' => 0 ≤ r'.pos) (r.step c) := by
  refine Ends.map ?_
  cases c with
  | seek off whence =>
    rcases r.target_cases off whence with ⟨-, hseek⟩ | ⟨p, hp, hseek, -⟩
    · simpa [call, hseek] using hpos
    · simpa [call, hseek] using h p hp
  | read len fuel rounds =>
    refine (read_spec r).bind fun p hp => ?_
    change 0 ≤ p.1.pos
    omega
  | setResponsive _ => exact hpos
  | setReadahead _ => exact hpos
  | setReadaheadFunc _ => exact hpos

theorem stays_of_within (r : Reader info) (hpos : 0 ≤ r.pos) (h : r.Within c) : r.Stays c := by
  cases c with
  | seek off whence =>
    change ∀ p ∈ r.target off whence, p < 0 → _
    intro p hp hneg
    exact absurd (h p hp) (not_le.mpr hneg)
  | read len fuel rounds =>
    refine (read_spec r).bind fun p hp => ?_
    obtain ⟨hread, hmoved⟩ := hp
    have hin : p.2.1 ≠ [] → r.pos + p.2.1.length ≤ r.window.length := by
      intro hne
      have hbelow := hread.below hne
      have hends := hread.ends hne
      have hfits := hread.fits
      rw [torrentOffset] at hends
      rcases h with h | h | h <;> omega
    refine ⟨fun i b hb => ?_, ?_⟩
    · have hi : i < p.2.1.length := (List.getElem?_eq_some_iff.mp hb).1
      have hle := hin (List.ne_nil_of_length_pos (zero_lt_of_lt hi))
      have hb' : b = r.torrentOffset + i := by
        rw [hread.bytes_eq, bytesFrom, getElem?_map, getElem?_range hi] at hb
        exact (Option.some.inj hb).symm
      rw [torrentOffset] at hb'
      exact ⟨hb', by omega, by omega⟩
    · by_cases hnil : p.2.1 = []
      · exact .inl (by rw [hmoved, hnil]; simp)
      · exact .inr (by rw [hmoved]; exact hin hnil)
  | setResponsive _ => exact ends_ok.mpr trivial
  | setReadahead _ => exact ends_ok.mpr trivial
  | setReadaheadFunc _ => exact ends_ok.mpr trivial

/-- **Readers stay in their window** in every run whose calls are `Within`. -/
theorem stays_within (window : Window info) (calls : List (Call info))
    (h : Meets step Within (new window) calls) : Meets step Stays (new window) calls :=
  h.imp_of_keeps (fun r _ => pos_nonneg_step r) (fun r _ => stays_of_within r) (le_refl 0)

/-- A torrent that has all of its data. -/
def completeTorrent (cfg : Config) (info : Info) : Torrent :=
  { cfg, info := some info, comp.completed := Bitmap.ofList (range info.numPieces) }

/-- Two files of four bytes, a piece each. -/
def twoFiles : Info where
  pieceLength := 4
  fileLengths := [4, 4]
  numPieces := 2
  files_ne := by decide
  valid := by decide

/-- All of the data is there, and storage gives these numbers of bytes. -/
def completeRound (counts : List Nat) : Round twoFiles where
  looks := [⟨completeTorrent smallConfig twoFiles, rfl, .readerCond⟩]
  reads := counts.map fun n => ⟨n, none⟩

/-- A `Read` into a buffer of `len` bytes. -/
def readComplete (len : Nat) (counts : List Nat) : Call twoFiles :=
  .read len 8 [completeRound counts]

/-- The first file is read, twice. -/
theorem stays_within_file :
    Meets step Within (new (.file twoFiles 0))
        [readComplete 4 [4], .seek 0 0, readComplete 2 [1, 1], readComplete 2 [2]] ∧
      Meets step Stays (new (.file twoFiles 0))
        [readComplete 4 [4], .seek 0 0, readComplete 2 [1, 1], readComplete 2 [2]] := by
  have h : Meets step Within (new (.file twoFiles 0))
      [readComplete 4 [4], .seek 0 0, readComplete 2 [1, 1], readComplete 2 [2]] := by
    decide
  exact ⟨h, stays_within _ _ h⟩

/-- What was read, and the position after it. -/
def gives (bytes : List ℤ) (pos : ℤ) : Reader twoFiles × Answer → Prop
  | (r, .got b _) => b = bytes ∧ r.pos = pos
  | (r, .sought p) => bytes = [] ∧ p = some pos ∧ r.pos = pos
  | _ => False

instance (bytes : List ℤ) (pos : ℤ) : DecidablePred (gives bytes pos)
  | (_, .got _ _) => inferInstanceAs (Decidable (_ ∧ _))
  | (_, .sought _) => inferInstanceAs (Decidable (_ ∧ _ ∧ _))
  | (_, .done) => .isFalse id

/-- **A `Read` of the first file goes on into the second one**, and a `Seek` of the second one goes
to a position before it, from where a `Read` gives the end of the first one. -/
theorem leaves_window :
    Reaches (gives [0, 1, 2, 3, 4, 5] 6) ((new (.file twoFiles 0)).call (readComplete 6 [4, 2])) ∧
      Reaches (gives [] (-1)) ((new (.file twoFiles 1)).call (.seek (-1) 0)) ∧
      Reaches (gives [3] 0) (do
        let r ← (new (.file twoFiles 1)).step (.seek (-1) 0)
        r.call (readComplete 1 [1])) := by
  decide

end Reader

end ReliableBT
