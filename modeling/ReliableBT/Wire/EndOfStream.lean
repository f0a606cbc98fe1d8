import ReliableBT.Wire.Decoder

/-!
# The end of a peer stream (`peer_protocol/decoder.go`, `peer_protocol/int.go`)

`Decode` promises that `io.EOF` is returned if the source terminates cleanly on a message boundary.
A read of several bytes gives `io.EOF` if there is not a single byte left, and
`io.ErrUnexpectedEOF` if there are some but not enough. The length is read first, so a stream that
ends cleanly is reported as promised. But every later field is read in the same way, and where one
begins the stream may end too.

* `Torn`: the stream ends inside of a message, at the beginning of the type byte or of a field.
* `decode_reportsEof_iff`: these streams are reported like one that ends cleanly, and no other.
* `clean_end_iff`: `io.EOF` tells a clean end exactly when the stream is not torn.
-/

namespace ReliableBT.Wire

open ReliableBT.Bytes List

/-- `errors.Is(err, io.EOF)` -/
def DecodeError.isEof : DecodeError → Bool
  | .readingLength e | .io e | .readingPieceData e => decide (e = .eof)
  | .tooLong | .pieceTooLong | .unknownType _ | .unusedBytes _ _ => false

/-- An error was returned for which `errors.Is(err, io.EOF)`. -/
def Decoded.reportsEof (o : Decoded) : Bool :=
  match o.exit with
  | .returned (some e) => e.isEof
  | .returned none | .panicked => false

/-- A message whose type byte is `c` has a field, or the data of a piece, that begins `n` bytes
after the type byte. `length` bytes were announced to follow the type byte. -/
def FieldAt (d : Decoder) (c : UInt8) (length : UInt32) (n : Nat) : Prop :=
  match MessageType.ofByte c with
  | .choke | .unchoke | .interested | .notInterested | .haveAll | .haveNone | .other _ => False
  | .have_ | .allowedFast | .suggest | .extended | .port => n = 0
  | .request | .cancel | .reject => n = 0 ∨ n = 4 ∨ n = 8
  | .bitfield => n = 0 ∧ length ≠ 0
  | .piece =>
    n = 0 ∨ n = 4 ∨
      n = 8 ∧ length ≠ 8 ∧ ∃ buf, d.pool = some buf ∧ (length - 8).toNat ≤ buf.cap

/-- The stream ends where the type byte or a field of a message begins. -/
def Torn (d : Decoder) (s : List UInt8) : Prop :=
  4 ≤ s.length ∧ 0 < getBE (s.take 4) ∧ getBE (s.take 4) ≤ d.maxLength.toNat ∧
    match s.drop 4 with
    | [] => True
    | c :: tail => FieldAt d c (.ofNat (getBE (s.take 4) - 1)) tail.length

theorem readFull_short {n : Nat} {s : List UInt8} (h : s.length < n) :
    readFull n s = (.error (if s = [] then .eof else .unexpectedEof), []) := by
  rw [readFull, if_neg (by omega)]
  cases s with
  | nil => rfl
  | cons b s => rfl

theorem readInteger_end (s : List UInt8) :
    (s.length < 4 ∧ readInteger s = (.error (if s = [] then .eof else .unexpectedEof), [])) ∨
      ∃ i rest, s.length = rest.length + 4 ∧ readInteger s = (.ok i, rest) := by
  by_cases h : s.length < 4
  · refine .inl ⟨h, ?_⟩
    rw [readInteger, readFull_short h]
  · refine .inr ⟨.ofNat (getBE (s.take 4)), s.drop 4, ?_, ?_⟩
    · rw [length_drop]
      omega
    · rw [readInteger, readFull_of_le (by omega)]

section Branches
variable {length : UInt32} {msg : Message} {s rest : List UInt8} {allocs : List Nat}

theorem reportsEof_short {o : Decoded} {e : DecodeError} (hexit : o.exit = .returned (some e))
    (he : e.isEof = decide ((if s = [] then IoError.eof else .unexpectedEof) = .eof)) :
    o.reportsEof = true ↔ s.length = 0 := by
  simp only [Decoded.reportsEof, hexit, he]
  cases s with
  | nil => simp
  | cons b s => simp

theorem reportsEof_finish_none : (finish none length msg rest allocs).reportsEof = false := by
  unfold finish
  by_cases h : length = 0
  · simp [h, Decoded.reportsEof]
  · simp [h, Decoded.reportsEof, DecodeError.isEof]

theorem reportsEof_decodeIndex : (decodeIndex length msg s).reportsEof = true ↔ s.length = 0 := by
  unfold decodeIndex
  rcases readInteger_end s with ⟨-, he⟩ | ⟨i, rest, hlen, he⟩
  · rw [he]
    exact reportsEof_short rfl rfl
  · rw [he]
    exact iff_of_false (by simp [reportsEof_finish_none]) (by omega)

theorem reportsEof_decodePort : (decodePort length msg s).reportsEof = true ↔ s.length = 0 := by
  unfold decodePort
  by_cases h : s.length < 2
  · rw [readFull_short h]
    exact reportsEof_short rfl rfl
  · rw [readFull_of_le (by omega)]
    exact iff_of_false (by simp [reportsEof_finish_none]) (by omega)

theorem reportsEof_decodeRequest :
    (decodeRequest length msg s).reportsEof = true ↔
      s.length = 0 ∨ s.length = 4 ∨ s.length = 8 := by
  unfold decodeRequest
  rcases readInteger_end s with ⟨hlt, he⟩ | ⟨i, s₁, hlen, he⟩
  · rw [he]
    refine (reportsEof_short rfl rfl).trans ?_
    omega
  rw [he]
  rcases readInteger_end s₁ with ⟨hlt, he⟩ | ⟨b, s₂, hlen₁, he⟩
  · simp only [he]
    refine (reportsEof_short rfl rfl).trans ?_
    omega
  simp only [he]
  rcases readInteger_end s₂ with ⟨hlt, he⟩ | ⟨l, s₃, hlen₂, he⟩
  · simp only [he]
    refine (reportsEof_short rfl rfl).trans ?_
    omega
  · simp only [he]
    exact iff_of_false (by simp [reportsEof_finish_none]) (by omega)

theorem reportsEof_decodeBitfield :
    (decodeBitfield length msg s).reportsEof = true ↔ s.length = 0 ∧ length ≠ 0 := by
  have hzero : length = 0 ↔ length.toNat = 0 := UInt32.toNat_inj.symm
  unfold decodeBitfield
  by_cases h : s.length < length.toNat
  · rw [readFull_short h]
    refine (reportsEof_short rfl rfl).trans ?_
    rw [ne_eq, hzero]
    omega
  · rw [readFull_of_le (by omega)]
    refine iff_of_false (by simp [reportsEof_finish_none]) ?_
    rw [ne_eq, hzero]
    omega

theorem reportsEof_decodeExtended :
    (decodeExtended length msg s).reportsEof = true ↔ s.length = 0 := by
  unfold decodeExtended
  cases s with
  | nil => simp [readByte, finish, Decoded.reportsEof, DecodeError.isEof]
  | cons c s =>
    refine iff_of_false ?_ (by simp)
    dsimp only [readByte]
    rcases readFull_cases (length - 1).toNat s with ⟨-, e, he⟩ | ⟨b, rest, -, -, he⟩
    · rw [he]
      simp [finish, Decoded.reportsEof, DecodeError.isEof]
    · rw [he]
      simp [reportsEof_finish_none]

theorem reportsEof_decodePieceData {buf : PoolBuffer} :
    (decodePieceData buf length msg s).reportsEof = true ↔
      s.length = 0 ∧ length ≠ 8 ∧ (length - 8).toNat ≤ buf.cap := by
  have height : length = 8 ↔ (length - 8).toNat = 0 := by
    rw [← UInt32.toNat_zero, UInt32.toNat_inj]
    grind
  unfold decodePieceData
  rw [ne_eq, height]
  by_cases hcap : buf.cap < (length - 8).toNat
  · rw [if_pos hcap]
    exact iff_of_false (by simp [Decoded.reportsEof, DecodeError.isEof]) (by omega)
  · rw [if_neg hcap]
    by_cases h : s.length < (length - 8).toNat
    · rw [readFull_short h]
      refine (reportsEof_short rfl rfl).trans ?_
      omega
    · rw [readFull_of_le (by omega)]
      exact iff_of_false (by simp [reportsEof_finish_none]) (by omega)

theorem reportsEof_decodePiece {pool : Option PoolBuffer} :
    (decodePiece pool length msg s).reportsEof = true ↔
      s.length = 0 ∨ s.length = 4 ∨
        s.length = 8 ∧ length ≠ 8 ∧ ∃ buf, pool = some buf ∧ (length - 8).toNat ≤ buf.cap := by
  unfold decodePiece
  rcases readInteger_end s with ⟨hlt, he⟩ | ⟨i, s₁, hlen, he⟩
  · rw [he]
    refine (reportsEof_short rfl rfl).trans ?_
    omega
  rw [he]
  rcases readInteger_end s₁ with ⟨hlt, he⟩ | ⟨b, s₂, hlen₁, he⟩
  · simp only [he]
    refine (reportsEof_short rfl rfl).trans ?_
    omega
  simp only [he]
  cases pool with
  | none =>
    refine iff_of_false (by simp [Decoded.reportsEof]) ?_
    rintro (h | h | ⟨-, -, buf, hbuf, -⟩)
    · omega
    · omega
    · cases hbuf
  | some buf =>
    refine reportsEof_decodePieceData.trans ⟨?_, ?_⟩
    · rintro ⟨hend, hne, hcap⟩
      exact .inr (.inr ⟨by omega, hne, buf, rfl, hcap⟩)
    · rintro (h | h | ⟨hend, hne, _, ⟨⟩, hcap⟩)
      · omega
      · omega
      · exact ⟨by omega, hne, hcap⟩

end Branches

theorem reportsEof_decodePayload {d : Decoder} {c : UInt8} {length : UInt32} {msg : Message}
    {s : List UInt8} :
    (decodePayload d c length msg s).reportsEof = true ↔ FieldAt d c length s.length := by
  unfold decodePayload FieldAt
  cases MessageType.ofByte c with
  | choke | unchoke | interested | notInterested | haveAll | haveNone =>
    simp [reportsEof_finish_none]
  | have_ | allowedFast | suggest => exact reportsEof_decodeIndex
  | request | cancel | reject => exact reportsEof_decodeRequest
  | bitfield => exact reportsEof_decodeBitfield
  | piece => exact reportsEof_decodePiece
  | extended => exact reportsEof_decodeExtended
  | port => exact reportsEof_decodePort
  | other b => simp [finish, Decoded.reportsEof, DecodeError.isEof]

/-- `io.EOF` is reported for a stream that is empty or torn, and for no other. -/
theorem decode_reportsEof_iff (d : Decoder) (msg : Message) (s : List UInt8) :
    (decode d msg s).reportsEof = true ↔ s = [] ∨ Torn d s := by
  unfold decode
  by_cases hshort : s.length < 4
  · have hread : readInteger s = (.error (if s = [] then .eof else .unexpectedEof), []) := by
      rw [readInteger, readFull_short hshort]
    have htorn : ¬ Torn d s := fun h => absurd h.1 (by omega)
    rw [hread, or_iff_left htorn]
    exact (reportsEof_short rfl rfl).trans length_eq_zero_iff
  rcases readInteger_cases s with ⟨hlt, -⟩ | ⟨hdr, s₁, hhdr, rfl, he⟩
  · exact absurd hlt hshort
  have hne : hdr ++ s₁ ≠ [] := by
    rintro h
    simp [h] at hshort
  have hlen : (UInt32.ofNat (getBE hdr)).toNat = getBE hdr := by
    have hlt := getBE_lt hdr
    rw [hhdr] at hlt
    exact UInt32.toNat_ofNat_of_lt' hlt
  rw [he, or_iff_right hne, Torn, take_left' hhdr, drop_left' hhdr]
  simp only [UInt32.lt_iff_toNat_lt, ← UInt32.toNat_inj, UInt32.toNat_zero, hlen]
  split_ifs with hmax hzero
  · exact iff_of_false (by simp [Decoded.reportsEof, DecodeError.isEof]) (by omega)
  · exact iff_of_false (by simp [Decoded.reportsEof]) (by omega)
  have hpos : 0 < getBE hdr := Nat.pos_of_ne_zero hzero
  have hle : getBE hdr ≤ d.maxLength.toNat := Nat.le_of_not_lt hmax
  have hfour : 4 ≤ (hdr ++ s₁).length := Nat.le_of_not_lt hshort
  cases s₁ with
  | nil => simp [readByte, Decoded.reportsEof, DecodeError.isEof, hhdr, hpos, hle]
  | cons c tail =>
    have hsub : UInt32.ofNat (getBE hdr) - 1 = .ofNat (getBE hdr - 1) := by
      rw [UInt32.ofNat_sub hpos]
      rfl
    dsimp only [readByte]
    rw [reportsEof_decodePayload, hsub]
    simp only [hpos, hle, hfour, true_and]

/-- **A clean end is distinguishable** exactly in a stream that is not torn: there `Decode` returns
an error with `errors.Is(err, io.EOF)` if and only if not a byte of the message is present. -/
theorem clean_end_iff (d : Decoder) (msg : Message) (s : List UInt8) :
    ((decode d msg s).reportsEof = true ↔ s = []) ↔ ¬ Torn d s := by
  rw [decode_reportsEof_iff]
  have hnil : s = [] → ¬ Torn d s := fun h ht => absurd ht.1 (by simp [h])
  tauto

/-- Streams that end after the length of a message, and after its type byte. -/
theorem torn_reports_eof :
    (decode ⟨16, none⟩ {} [0, 0, 0, 5]).exit = .returned (some (.io .eof)) ∧
      (decode ⟨16, none⟩ {} [0, 0, 0, 5, 4]).exit = .returned (some (.io .eof)) ∧
      ¬ ((decode ⟨16, none⟩ {} [0, 0, 0, 5]).reportsEof = true ↔
        ([0, 0, 0, 5] : List UInt8) = []) := by
  decide

end ReliableBT.Wire
