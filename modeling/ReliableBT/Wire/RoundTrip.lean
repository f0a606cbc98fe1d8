import ReliableBT.Wire.Decoder

/-!
# Writing and reading back (`peer_protocol/msg.go`, `peer_protocol/decoder.go`)

What `Decode` makes of what `MarshalBinary` wrote, and the other way round.

* `Message.used` keeps the fields that the type of a message uses, and `Message.padded` is what
  comes back: whole bytes of bits were written.
* `decode_marshalBinary`: a message that was written is read back, whatever follows it, by a
  decoder with room for it.
* `reencode_iff`: the messages of a stream are written back to the same stream unless there is a
  `Suggest` or an `AllowedFast` among them, which `Decode` knows and `MarshalBinary` does not.
  A register that wraps makes no difference here, since the length that is written wraps too.
* `unmarshalBinary_iff`: the decoder that `UnmarshalBinary` makes for itself has no `MaxLength`, so
  that a keepalive is all it reads.
-/

open List UInt32 ReliableBT.Wire.Message Option

namespace ReliableBT.Wire

open ReliableBT.Bytes

/-! ## Bitfields -/

/-- `false` up to a multiple of eight bits -/
def padBits (bf : List Bool) : List Bool :=
  bf ++ replicate (8 * ((bf.length + 7) / 8) - bf.length) false

/-- The bits of a byte, the highest first. -/
def byteBits (c : UInt8) : List Bool := (range 8).map fun i => c.toNat.testBit (7 - i)

theorem unmarshalBitfield_cons (c : UInt8) (b : List UInt8) :
    unmarshalBitfield (c :: b) = byteBits c ++ unmarshalBitfield b := rfl

theorem byteBits_bitfieldByte (bf : List Bool) (k : Nat) :
    byteBits (bitfieldByte bf k) = (range 8).map fun i => bf.getD (8 * k + i) false := by
  unfold byteBits bitfieldByte
  simp only [range_succ, range_zero, nil_append, cons_append, foldl_cons,
    foldl_nil, map_cons, map_nil]
  -- the eight bits are arbitrary, so they are named and the rest decided
  generalize bf.getD (8 * k + 0) false = b₀
  generalize bf.getD (8 * k + 1) false = b₁
  generalize bf.getD (8 * k + 2) false = b₂
  generalize bf.getD (8 * k + 3) false = b₃
  generalize bf.getD (8 * k + 4) false = b₄
  generalize bf.getD (8 * k + 5) false = b₅
  generalize bf.getD (8 * k + 6) false = b₆
  generalize bf.getD (8 * k + 7) false = b₇
  revert b₀ b₁ b₂ b₃ b₄ b₅ b₆ b₇
  decide

theorem flatMap_range_eight {α : Type} (f : Nat → α) (n : Nat) :
    (range n).flatMap (fun k => (range 8).map fun i => f (8 * k + i)) = (range (8 * n)).map f := by
  induction n with
  | zero => rfl
  | succ n ih =>
    rw [range_succ (n := n), flatMap_append, ih, Nat.mul_succ, range_add, map_append]
    simp

/-- **Bits come back**, with those that fill the last byte. -/
theorem unmarshalBitfield_marshalBitfield (bf : List Bool) :
    unmarshalBitfield (marshalBitfield bf) = padBits bf := by
  have hbits : unmarshalBitfield (marshalBitfield bf) =
      (range (8 * ((bf.length + 7) / 8))).map fun i => bf.getD i false := by
    rw [← flatMap_range_eight, marshalBitfield, unmarshalBitfield, flatMap_map]
    exact flatMap_congr fun k _ => byteBits_bitfieldByte bf k
  rw [hbits, padBits]
  apply ext_getElem
  · simp
    omega
  · intro i hi hi'
    rw [getElem_map, getElem_range, getElem_append]
    split
    · next h => simp [h]
    · next h => simp [Nat.le_of_not_lt h]

theorem getD_unmarshalBitfield (b : List UInt8) (k : Nat) {i : Nat} (hi : i < 8) :
    (unmarshalBitfield b).getD (8 * k + i) false = (b.getD k 0).toNat.testBit (7 - i) := by
  induction b generalizing k with
  | nil => simp [unmarshalBitfield]
  | cons c b ih =>
    have hlen : (byteBits c).length = 8 := by simp [byteBits]
    rw [unmarshalBitfield_cons]
    cases k with
    | zero =>
      rw [getD_append _ _ _ _ (by omega)]
      simp [byteBits, getD_eq_getElem?_getD, hi]
    | succ k =>
      rw [getD_append_right _ _ _ _ (by omega), hlen,
        show 8 * (k + 1) + i - 8 = 8 * k + i by omega, ih]
      rfl

theorem length_unmarshalBitfield (b : List UInt8) :
    (unmarshalBitfield b).length = 8 * b.length := by
  induction b with
  | nil => rfl
  | cons c b ih =>
    rw [unmarshalBitfield_cons, length_append, ih, length_cons]
    simp [byteBits]
    omega

theorem foldl_testBit : ∀ c : Fin 256,
    (range 8).foldl (fun (s : UInt8) j => s * 2 + if c.val.testBit (7 - j) then 1 else 0) 0 =
      UInt8.ofNat c := by
  decide +kernel

/-- **Bytes come back.** -/
theorem marshalBitfield_unmarshalBitfield (b : List UInt8) :
    marshalBitfield (unmarshalBitfield b) = b := by
  have hcount : ((unmarshalBitfield b).length + 7) / 8 = b.length := by
    rw [length_unmarshalBitfield]
    omega
  rw [marshalBitfield, hcount]
  apply ext_getElem
  · simp
  · intro k hk hk'
    rw [getElem_map, getElem_range]
    have hbyte := foldl_testBit ⟨b[k].toNat, b[k].toNat_lt⟩
    rw [UInt8.ofNat_toNat] at hbyte
    rw [← hbyte, bitfieldByte]
    refine foldl_ext _ _ _ fun s j hj => ?_
    rw [getD_unmarshalBitfield b k (mem_range.mp hj)]
    simp [hk']

/-! ## Messages -/

namespace Message

/-- The message with only the fields that its type uses. -/
def used (msg : Message) : Message :=
  if msg.keepalive then { keepalive := true }
  else
    match msg.type with
    | .choke | .unchoke | .interested | .notInterested | .haveAll | .haveNone | .other _ =>
      { type := msg.type }
    | .have_ | .suggest | .allowedFast => { type := msg.type, index := msg.index }
    | .request | .cancel | .reject =>
      { type := msg.type, index := msg.index, begin := msg.begin, length := msg.length }
    | .bitfield => { type := msg.type, bitfield := msg.bitfield }
    | .piece =>
      { type := msg.type, index := msg.index, begin := msg.begin, piece := msg.piece }
    | .extended =>
      { type := msg.type, extendedID := msg.extendedID, extendedPayload := msg.extendedPayload }
    | .port => { type := msg.type, port := msg.port }

/-- The message with a bitfield of whole bytes. -/
def padded (msg : Message) : Message := { msg with bitfield := padBits msg.bitfield }

theorem padded_of_nil {msg : Message} (h : msg.bitfield = []) : msg.padded = msg := by
  have hpad : padBits msg.bitfield = msg.bitfield := by
    rw [h]
    rfl
  rw [padded, hpad]

end Message

theorem readInteger_putBE (n : Nat) (s : List UInt8) :
    readInteger (putBE 4 n ++ s) = (.ok (UInt32.ofNat n), s) := by
  have hread := readFull_append (putBE 4 n) s
  rw [length_putBE] at hread
  have hnat : UInt32.ofNat (getBE (putBE 4 n)) = UInt32.ofNat n := by
    rw [getBE_putBE]
    apply UInt32.toNat_inj.mp
    simp
  simp only [readInteger, hread, hnat]

@[simp] theorem readInteger_putInteger (i : UInt32) (s : List UInt8) :
    readInteger (putInteger i ++ s) = (.ok i, s) := by
  rw [putInteger, readInteger_putBE, UInt32.ofNat_toNat]

variable {d : Decoder} {length : UInt32} {b data : List UInt8} {msg : Message} {s rest : List UInt8}
  {allocs : List Nat}

theorem decode_frame (msg : Message) (c : UInt8) (body rest : List UInt8)
    (h : body.length + 1 ≤ d.maxLength.toNat) :
    decode d msg (putBE 4 (body.length + 1) ++ c :: (body ++ rest)) =
      decodePayload d c (ofNat body.length) { msg with type := .ofByte c }
        (body ++ rest) := by
  have hmax := d.maxLength.toNat_lt
  have hsize : size = 2 ^ 32 := rfl
  have hlen : (ofNat (body.length + 1)).toNat = body.length + 1 :=
    toNat_ofNat_of_lt' (by omega)
  have hsub : ofNat (body.length + 1) - 1 = ofNat body.length := by
    apply UInt32.toNat_inj.mp
    rw [toNat_sub_of_le (by rw [hlen]; change 1 ≤ _; omega), hlen,
      UInt32.toNat_ofNat_of_lt' (by omega)]
    rfl
  rw [decode, readInteger_putBE]
  simp only [UInt32.lt_iff_toNat_lt, ← UInt32.toNat_inj, hlen, hsub, readByte]
  rw [if_neg (by omega), if_neg (by simp)]

/-! ### Each branch reads what was written for it -/

theorem decodeIndex_put (msg : Message) (i : UInt32) (rest : List UInt8) :
    decodeIndex 4 msg (putInteger i ++ rest) =
      ⟨.returned none, { msg with index := i }, rest, []⟩ := by
  simp [decodeIndex, finish]

theorem decodeRequest_put (msg : Message) (i b l : UInt32) (rest : List UInt8) :
    decodeRequest 12 msg (putInteger i ++ (putInteger b ++ (putInteger l ++ rest))) =
      ⟨.returned none, { msg with index := i, begin := b, length := l }, rest, []⟩ := by
  simp [decodeRequest, finish]

theorem decodeBitfield_put (msg : Message) (h : length.toNat = b.length) (rest : List UInt8) :
    decodeBitfield length msg (b ++ rest) =
      ⟨.returned none, { msg with bitfield := unmarshalBitfield b }, rest, [b.length]⟩ := by
  simp [decodeBitfield, h, readFull_append, finish]

theorem decodePiece_put (msg : Message) {buf : PoolBuffer} (h : length.toNat = data.length + 8)
    (hcap : data.length ≤ buf.cap) (i b : UInt32) (rest : List UInt8) :
    decodePiece (some buf) length msg (putInteger i ++ (putInteger b ++ (data ++ rest))) =
      ⟨.returned none, { msg with index := i, begin := b, piece := data }, rest,
        if buf.fresh then [buf.cap] else []⟩ := by
  have hsub : (length - 8).toNat = data.length := by
    rw [toNat_sub_of_le (by rw [h]; change 8 ≤ _; omega), h]
    rfl
  simp [decodePiece, decodePieceData, hsub, Nat.not_lt.mpr hcap, readFull_append, finish]

theorem decodeExtended_put (msg : Message) (h : length.toNat = data.length + 1) (id : UInt8)
    (rest : List UInt8) :
    decodeExtended length msg (id :: (data ++ rest)) =
      ⟨.returned none, { msg with extendedID := id, extendedPayload := data }, rest,
        [data.length]⟩ := by
  have hsub : (length - 1).toNat = data.length := by
    rw [toNat_sub_of_le (by rw [h]; change 1 ≤ _; omega), h]
    rfl
  simp [decodeExtended, readByte, hsub, readFull_append, finish]

theorem decodePort_put (msg : Message) (port : UInt16) (rest : List UInt8) :
    decodePort 2 msg (putBE 2 port.toNat ++ rest) =
      ⟨.returned none, { msg with port := port }, rest, []⟩ := by
  have hread := readFull_append (putBE 2 port.toNat) rest
  rw [length_putBE] at hread
  have hport : UInt16.ofNat (getBE (putBE 2 port.toNat)) = port := by
    rw [getBE_putBE_of_lt port.toNat_lt, UInt16.ofNat_toNat]
  simp [decodePort, hread, hport, finish]

theorem decodePayload_payload {c : UInt8} {body : List UInt8} (hk : msg.keepalive = false)
    (hused : msg.used = msg) (hp : msg.payload = some (c :: body))
    (hlen : length.toNat = body.length)
    (hpool : msg.type = .piece → ∃ buf, d.pool = some buf ∧ msg.piece.length ≤ buf.cap)
    (rest : List UInt8) :
    ∃ allocs, decodePayload d c length { type := .ofByte c } (body ++ rest) =
      ⟨.returned none, msg.padded, rest, allocs⟩ := by
  obtain ⟨keepalive, type, index, begin, len, piece, bitfield, extendedID, payload, port⟩ := msg
  cases hk
  cases type
  case suggest | allowedFast | other => cases hp
  all_goals obtain ⟨rfl, rfl⟩ := cons.inj (some.inj hp)
  case choke | unchoke | interested | notInterested | haveAll | haveNone =>
    cases hused
    have hzero : length = 0 := UInt32.toNat_inj.mp hlen
    rw [hzero, padded_of_nil rfl]
    exact ⟨[], rfl⟩
  case have_ =>
    cases hused
    have hfour : length = 4 := UInt32.toNat_inj.mp (hlen.trans (length_putInteger index))
    rw [hfour, padded_of_nil rfl]
    exact ⟨[], decodeIndex_put { type := .have_ } index rest⟩
  case request | cancel | reject =>
    cases hused
    have htwelve : length = 12 := UInt32.toNat_inj.mp (by rw [hlen]; simp)
    rw [htwelve, padded_of_nil rfl, append_assoc, append_assoc]
    exact ⟨[], decodeRequest_put _ index begin len rest⟩
  case bitfield =>
    cases hused
    rw [padded, ← unmarshalBitfield_marshalBitfield]
    exact ⟨_, decodeBitfield_put { type := .bitfield } hlen rest⟩
  case piece =>
    cases hused
    obtain ⟨buf, hbuf, hcap⟩ := hpool rfl
    have hsize : length.toNat = piece.length + 8 := by
      rw [hlen, length_append, length_append, length_putInteger, length_putInteger, Nat.add_comm]
    rw [padded_of_nil rfl, append_assoc, append_assoc]
    have hput := decodePiece_put { type := .piece } hsize hcap index begin rest
    rw [← hbuf] at hput
    exact ⟨_, hput⟩
  case extended =>
    cases hused
    rw [padded_of_nil rfl]
    exact ⟨_, decodeExtended_put { type := .extended } hlen extendedID rest⟩
  case port =>
    cases hused
    have htwo : length = 2 := UInt32.toNat_inj.mp (hlen.trans (length_putBE 2 _))
    rw [htwo, padded_of_nil rfl]
    exact ⟨[], decodePort_put { type := .port } port rest⟩

/-- **What is written is read back.** A message whose unused fields are zero, followed by anything,
is decoded by a decoder with room for it, up to the bits that fill the last byte of a bitfield; the
reader is left at what follows. -/
theorem decode_marshalBinary {d : Decoder} {msg : Message} {data : List UInt8}
    (hm : msg.marshalBinary = some data) (hused : msg.used = msg)
    (hmax : data.length ≤ 4 + d.maxLength.toNat)
    (hpool : msg.type = .piece → ∃ buf, d.pool = some buf ∧ msg.piece.length ≤ buf.cap)
    (rest : List UInt8) :
    ∃ allocs, decode d {} (data ++ rest) = ⟨.returned none, msg.padded, rest, allocs⟩ := by
  rw [Message.marshalBinary] at hm
  cases hk : msg.keepalive with
  | true =>
    rw [if_pos hk, some.injEq] at hm
    have hmsg : msg = { keepalive := true } := by rw [← hused, Message.used, if_pos hk]
    subst hm hmsg
    rw [decode, readInteger_putBE, Message.padded_of_nil rfl]
    exact ⟨[], by simp⟩
  | false =>
    rw [if_neg (by simp [hk]), map_eq_some_iff] at hm
    obtain ⟨buf, hp, rfl⟩ := hm
    cases buf with
    | nil =>
      rw [Message.payload] at hp
      split at hp <;> simp at hp
    | cons c body =>
      rw [length_append, length_putBE, length_cons] at hmax
      have hlt := d.maxLength.toNat_lt
      rw [append_assoc, cons_append, length_cons, decode_frame _ c body rest (by omega)]
      exact decodePayload_payload hk hused hp
        (UInt32.toNat_ofNat_of_lt' (by change _ < 2 ^ 32; omega)) hpool rest

/-- A bitfield of three bits, and a piece of two bytes. -/
theorem messages_read_back :
    (∃ allocs, decode ⟨2, none⟩ {} ([0, 0, 0, 2, 5, 0xa0] ++ [0, 0]) =
      ⟨.returned none, { type := .bitfield, bitfield := [true, false, true, false, false, false,
        false, false] }, [0, 0], allocs⟩) ∧
    ∃ allocs, decode ⟨11, some ⟨[0, 0], 2, false⟩⟩ {}
        ([0, 0, 0, 11, 7, 0, 0, 0, 1, 0, 0, 0, 4, 8, 9] ++ [0]) =
      ⟨.returned none, { type := .piece, index := 1, begin := 4, piece := [8, 9] }, [0], allocs⟩ :=
  ⟨@decode_marshalBinary ⟨2, none⟩ { type := .bitfield, bitfield := [true, false, true] } _
      (by decide) (by decide) (by decide) (by decide) [0, 0],
    @decode_marshalBinary ⟨11, some ⟨[0, 0], 2, false⟩⟩
      { type := .piece, index := 1, begin := 4, piece := [8, 9] } _
      (by decide) (by decide) (by decide) (fun _ => ⟨_, rfl, by decide⟩) [0]⟩

/-! ## Streams -/

theorem putBE_of_mod {w n k : Nat} (h : n % 256 ^ w = k % 256 ^ w) : putBE w n = putBE w k := by
  have hn := putBE_getBE (putBE w n)
  have hk := putBE_getBE (putBE w k)
  rw [length_putBE, getBE_putBE] at hn hk
  rw [← hn, ← hk, h]

theorem putInteger_ofNat (h : b.length = 4) : putInteger (ofNat (getBE b)) = b := by
  have hlt := getBE_lt b
  rw [h] at hlt
  rw [putInteger, toNat_ofNat_of_lt' hlt, ← h, putBE_getBE]

/-- The types that `Decode` knows and `MarshalBinary` does not. -/
def MessageType.Unwritable (t : MessageType) : Prop := t = .suggest ∨ t = .allowedFast

instance (t : MessageType) : Decidable t.Unwritable :=
  inferInstanceAs (Decidable (t = .suggest ∨ t = .allowedFast))

/-- The outcome `o` of the type switch on `s` is a message of type `t`, and what was read of `s` is
what `MarshalBinary` writes for it if it knows the type. -/
def PayloadWritten (t : MessageType) (length : UInt32) (s : List UInt8) (o : Decoded) : Prop :=
  o.exit = .returned none →
    o.msg.keepalive = false ∧ o.msg.type = t ∧
      (¬ t.Unwritable →
        ∃ body, s = body ++ o.rest ∧ UInt32.ofNat body.length = length ∧
          o.msg.payload = some (t.toByte :: body))

@[simp] theorem finish_msg (err : Option DecodeError) (length : UInt32) (msg : Message)
    (rest : List UInt8) (allocs : List Nat) : (finish err length msg rest allocs).msg = msg := by
  cases err with
  | some e => rfl
  | none =>
    unfold finish
    by_cases h : length = 0 <;> simp [h]

section Written
variable {t : MessageType} {length : UInt32} {msg : Message} {s body rest : List UInt8}
  {allocs : List Nat} {o : Decoded}

theorem written_of_failed (h : o.exit ≠ .returned none) : PayloadWritten t length s o :=
  fun hexit => absurd hexit h

theorem written_of_sub {k : UInt32} (hk : body.length = k.toNat) (hkeep : msg.keepalive = false)
    (htype : msg.type = t) (hpay : ¬ t.Unwritable → msg.payload = some (t.toByte :: body)) :
    PayloadWritten t length (body ++ rest) (finish none (length - k) msg rest allocs) := by
  intro hexit
  have hlen : length = k := by
    have hsub : length - k = 0 := (finish_exit.mp hexit).2
    grind
  rw [finish_msg, finish_rest]
  exact ⟨hkeep, htype, fun ht => ⟨body, rfl, by rw [hk, hlen, UInt32.ofNat_toNat], hpay ht⟩⟩

theorem written_of_all (hlen : ofNat body.length = length) (hkeep : msg.keepalive = false)
    (htype : msg.type = t) (hpay : msg.payload = some (t.toByte :: body)) :
    PayloadWritten t length (body ++ rest) (finish none 0 msg rest allocs) := by
  intro _
  rw [finish_msg, finish_rest]
  exact ⟨hkeep, htype, fun _ => ⟨body, rfl, hlen, hpay⟩⟩

theorem decodeIndex_written (ht : t = .have_ ∨ t.Unwritable) :
    PayloadWritten t length s (decodeIndex length { type := t } s) := by
  unfold decodeIndex
  rcases readInteger_cases s with ⟨-, e, he⟩ | ⟨b, rest, hb, rfl, he⟩
  · rw [he]
    exact written_of_failed (by simp)
  · rw [he]
    refine written_of_sub hb rfl rfl fun hknown => ?_
    rw [ht.resolve_right hknown]
    simp only [payload, putInteger_ofNat hb]

theorem decodeRequest_written (ht : t = .request ∨ t = .cancel ∨ t = .reject) :
    PayloadWritten t length s (decodeRequest length { type := t } s) := by
  unfold decodeRequest
  rcases readInteger_cases s with ⟨-, e, he⟩ | ⟨b₁, s₁, h₁, rfl, he⟩
  · rw [he]
    exact written_of_failed (by simp)
  rw [he]
  rcases readInteger_cases s₁ with ⟨-, e, he⟩ | ⟨b₂, s₂, h₂, rfl, he⟩
  · simp only [he]
    exact written_of_failed (by simp)
  simp only [he]
  rcases readInteger_cases s₂ with ⟨-, e, he⟩ | ⟨b₃, s₃, h₃, rfl, he⟩
  · simp only [he]
    exact written_of_failed (by simp)
  simp only [he]
  rw [← append_assoc b₂, ← append_assoc b₁]
  refine written_of_sub (by simp [h₁, h₂, h₃]) rfl rfl fun _ => ?_
  rcases ht with rfl | rfl | rfl <;>
    simp only [payload, putInteger_ofNat h₁, putInteger_ofNat h₂, putInteger_ofNat h₃, append_assoc]

theorem decodeBitfield_written :
    PayloadWritten .bitfield length s (decodeBitfield length { type := .bitfield } s) := by
  unfold decodeBitfield
  rcases readFull_cases length.toNat s with ⟨-, e, he⟩ | ⟨b, rest, hb, rfl, he⟩
  · rw [he]
    exact written_of_failed (by simp)
  · rw [he]
    refine written_of_all (by rw [hb, UInt32.ofNat_toNat]) rfl rfl ?_
    simp only [payload, marshalBitfield_unmarshalBitfield]

theorem ofNat_sub_add (length k : UInt32) :
    UInt32.ofNat ((length - k).toNat + k.toNat) = length := by
  rw [UInt32.ofNat_add, UInt32.ofNat_toNat, UInt32.ofNat_toNat, UInt32.sub_add_cancel]

theorem decodePieceData_written {b₁ b₂ : List UInt8} (h₁ : b₁.length = 4) (h₂ : b₂.length = 4)
    (buf : PoolBuffer) :
    PayloadWritten .piece length (b₁ ++ (b₂ ++ s)) (decodePieceData buf length
      { type := .piece, index := .ofNat (getBE b₁), begin := .ofNat (getBE b₂) } s) := by
  unfold decodePieceData
  by_cases hcap : buf.cap < (length - 8).toNat
  · rw [if_pos hcap]
    exact written_of_failed (by simp)
  · rw [if_neg hcap]
    rcases readFull_cases (length - 8).toNat s with ⟨-, e, he⟩ | ⟨b, rest, hb, rfl, he⟩
    · rw [he]
      exact written_of_failed (by simp)
    · rw [he, ← append_assoc b₂, ← append_assoc b₁]
      refine written_of_all ?_ rfl rfl ?_
      · rw [← ofNat_sub_add length 8, length_append, length_append, h₁, h₂, hb,
          ← Nat.add_assoc, Nat.add_comm]
        rfl
      · simp only [payload, putInteger_ofNat h₁, putInteger_ofNat h₂, append_assoc]

theorem decodePiece_written (pool : Option PoolBuffer) :
    PayloadWritten .piece length s (decodePiece pool length { type := .piece } s) := by
  unfold decodePiece
  rcases readInteger_cases s with ⟨-, e, he⟩ | ⟨b₁, s₁, h₁, rfl, he⟩
  · rw [he]
    exact written_of_failed (by simp)
  rw [he]
  rcases readInteger_cases s₁ with ⟨-, e, he⟩ | ⟨b₂, s₂, h₂, rfl, he⟩
  · simp only [he]
    exact written_of_failed (by simp)
  simp only [he]
  cases pool with
  | none => exact written_of_failed (by simp)
  | some buf => exact decodePieceData_written h₁ h₂ buf

theorem decodeExtended_written :
    PayloadWritten .extended length s (decodeExtended length { type := .extended } s) := by
  unfold decodeExtended
  cases s with
  | nil => exact written_of_failed (by simp [readByte])
  | cons id s =>
    dsimp only [readByte]
    rcases readFull_cases (length - 1).toNat s with ⟨-, e, he⟩ | ⟨b, rest, hb, rfl, he⟩
    · rw [he]
      exact written_of_failed (by simp)
    · rw [he, ← cons_append]
      refine written_of_all ?_ rfl rfl rfl
      rw [← ofNat_sub_add length 1, length_cons, hb]
      rfl

theorem decodePort_written :
    PayloadWritten .port length s (decodePort length { type := .port } s) := by
  unfold decodePort
  rcases readFull_cases 2 s with ⟨-, e, he⟩ | ⟨b, rest, hb, rfl, he⟩
  · rw [he]
    exact written_of_failed (by simp)
  · rw [he]
    have hlt := getBE_lt b
    rw [hb] at hlt
    have hport : putBE 2 (UInt16.ofNat (getBE b)).toNat = b := by
      rw [UInt16.toNat_ofNat_of_lt' hlt, ← hb, putBE_getBE]
    refine written_of_sub hb rfl rfl fun _ => ?_
    simp only [payload, hport]

theorem decodePayload_written (d : Decoder) (c : UInt8) :
    PayloadWritten (.ofByte c) length s (decodePayload d c length { type := .ofByte c } s) := by
  unfold decodePayload
  cases MessageType.ofByte c with
  | choke | unchoke | interested | notInterested | haveAll | haveNone =>
    intro hexit
    have hzero : length = 0 := (finish_exit.mp hexit).2
    rw [finish_msg, finish_rest]
    exact ⟨rfl, rfl, fun _ => ⟨[], rfl, hzero.symm, rfl⟩⟩
  | have_ => exact decodeIndex_written (.inl rfl)
  | suggest => exact decodeIndex_written (.inr (.inl rfl))
  | allowedFast => exact decodeIndex_written (.inr (.inr rfl))
  | request => exact decodeRequest_written (.inl rfl)
  | cancel => exact decodeRequest_written (.inr (.inl rfl))
  | reject => exact decodeRequest_written (.inr (.inr rfl))
  | bitfield => exact decodeBitfield_written
  | piece => exact decodePiece_written d.pool
  | extended => exact decodeExtended_written
  | port => exact decodePort_written
  | other b => exact written_of_failed (by simp)

end Written

theorem MessageType.toByte_ofByte (c : UInt8) : (ofByte c).toByte = c := by
  have hall : ∀ n : Fin 256, (ofByte (UInt8.ofNat n)).toByte = UInt8.ofNat n := by
    decide +kernel
  have hc := hall ⟨c.toNat, c.toNat_lt⟩
  rwa [UInt8.ofNat_toNat] at hc

/-- **What is read is written back**, if `MarshalBinary` knows its type. -/
theorem marshalBinary_decode (h : decode d {} s = ⟨.returned none, msg, rest, allocs⟩) :
    if msg.type.Unwritable then msg.marshalBinary = none
    else ∃ data, msg.marshalBinary = some data ∧ s = data ++ rest := by
  unfold decode at h
  rcases readInteger_cases s with ⟨-, e, he⟩ | ⟨hdr, s₁, hhdr, rfl, he⟩
  · rw [he] at h
    cases h
  have hlt := getBE_lt hdr
  rw [hhdr] at hlt
  have hlen : (ofNat (getBE hdr)).toNat = getBE hdr := toNat_ofNat_of_lt' hlt
  rw [he] at h
  dsimp only at h
  split_ifs at h with hmax hzero
  · cases h
  · cases h
    have hhdr₀ : hdr = putBE 4 0 := by
      rw [← putBE_getBE hdr, hhdr, ← hlen, hzero]
      rfl
    rw [if_neg (by decide)]
    exact ⟨putBE 4 0, rfl, by rw [hhdr₀]⟩
  cases s₁ with
  | nil => cases h
  | cons c s₂ =>
    have hwritten : PayloadWritten (.ofByte c) (ofNat (getBE hdr) - 1) s₂
        (decodePayload d c (ofNat (getBE hdr) - 1) { type := .ofByte c } s₂) :=
      decodePayload_written d c
    rw [show decodePayload d c _ _ s₂ = _ from h] at hwritten
    obtain ⟨hkeep, htype, hpay⟩ := hwritten rfl
    simp only at hkeep htype hpay
    split_ifs with hunwritable
    · rw [marshalBinary, if_neg (by simp [hkeep]), payload]
      rcases hunwritable with hs | ha
      · rw [hs]
        rfl
      · rw [ha]
        rfl
    · rw [htype] at hunwritable
      obtain ⟨body, rfl, hbody, hpayload⟩ := hpay hunwritable
      refine ⟨putBE 4 (body.length + 1) ++ (MessageType.ofByte c).toByte :: body, ?_, ?_⟩
      · rw [marshalBinary, if_neg (by simp [hkeep]), hpayload]
        rfl
      · have hhead : hdr = putBE 4 (body.length + 1) := by
          have hnat : ofNat (body.length + 1) = ofNat (getBE hdr) := by
            rw [ofNat_add, hbody]
            exact sub_add_cancel _ 1
          have hmod := congrArg toNat hnat
          rw [toNat_ofNat', toNat_ofNat'] at hmod
          rw [putBE_of_mod hmod, ← hhdr, putBE_getBE]
        rw [MessageType.toByte_ofByte, ← hhead, append_assoc, cons_append]

/-- The stream is decoded into the messages, each into a zero `Message`, and ends at a message
boundary. The pool hands out a buffer for each of the calls. -/
inductive DecodesTo (maxLength : UInt32) : List UInt8 → List Message → Prop
  | done : DecodesTo maxLength [] []
  | next {s rest : List UInt8} {msg : Message} {msgs : List Message} {allocs : List Nat}
      (pool : Option PoolBuffer)
      (hmsg : decode ⟨maxLength, pool⟩ {} s = ⟨.returned none, msg, rest, allocs⟩)
      (hrest : DecodesTo maxLength rest msgs) : DecodesTo maxLength s (msg :: msgs)

/-- **Streams are written back** exactly when no message in them is a `Suggest` or an
`AllowedFast`: then `MarshalBinary` succeeds on every decoded message, and the results make up the
stream. -/
theorem reencode_iff {maxLength : UInt32} {s : List UInt8} {msgs : List Message}
    (h : DecodesTo maxLength s msgs) :
    (msgs.mapM Message.marshalBinary).map flatten = some s ↔
      ∀ msg ∈ msgs, ¬ msg.type.Unwritable := by
  induction h with
  | done => simp
  | @next s rest msg msgs allocs pool hmsg hrest ih =>
    have hback := marshalBinary_decode hmsg
    rw [forall_mem_cons, ← ih, mapM_cons]
    split_ifs at hback with hunwritable
    · simp [hback, hunwritable]
    · obtain ⟨data, hdata, rfl⟩ := hback
      cases msgs.mapM Message.marshalBinary with
      | none => simp [hdata]
      | some datas => simp [hdata, hunwritable]

theorem stream_written_back :
    DecodesTo 5 [0, 0, 0, 0, 0, 0, 0, 5, 4, 0, 0, 0, 7]
      [{ keepalive := true }, { type := .have_, index := 7 }] ∧
    (mapM Message.marshalBinary
      [{ keepalive := true }, { type := .have_, index := 7 }]).map flatten =
        some [0, 0, 0, 0, 0, 0, 0, 5, 4, 0, 0, 0, 7] := by
  have hstream : DecodesTo 5 [0, 0, 0, 0, 0, 0, 0, 5, 4, 0, 0, 0, 7]
      [{ keepalive := true }, { type := .have_, index := 7 }] :=
    .next none rfl (.next none rfl .done)
  exact ⟨hstream, (reencode_iff hstream).mpr (by decide)⟩

/-- A `Suggest` is decoded, and `MarshalBinary` fails on it. -/
theorem suggest_not_written_back :
    DecodesTo 5 [0, 0, 0, 5, 13, 0, 0, 0, 7] [{ type := .suggest, index := 7 }] ∧
      Message.marshalBinary { type := .suggest, index := 7 } = none :=
  ⟨.next none rfl .done, by decide⟩

/-! ## `UnmarshalBinary` -/

/-- What is left in the buffer of a `bufio.Reader` of the default size over `b`, when the reader
has `rest` left and has filled its buffer once. -/
def buffered (b rest : List UInt8) : Nat := min 4096 b.length - (b.length - rest.length)

/-- How `UnmarshalBinary` ends. -/
inductive Unmarshaled where
  | ok (msg : Message)
  | failed (err : DecodeError)
  /-- `%d trailing bytes` -/
  | trailing (n : Nat)
  | panicked
  deriving Repr, DecidableEq

/-- `UnmarshalBinary`, whose decoder has neither a `MaxLength` nor a `Pool`. It returns without an
error only after having read a length of four bytes, with one filling of the buffer. -/
def Message.unmarshalBinary (msg : Message) (b : List UInt8) : Unmarshaled :=
  match decode ⟨0, none⟩ msg b with
  | ⟨.panicked, _, _, _⟩ => .panicked
  | ⟨.returned (some err), _, _, _⟩ => .failed err
  | ⟨.returned none, msg, rest, _⟩ =>
    if buffered b rest ≠ 0 then .trailing (buffered b rest) else .ok msg

theorem decode_zero_max {pool : Option PoolBuffer} {msg' : Message}
    (h : decode ⟨0, pool⟩ msg s = ⟨.returned none, msg', rest, allocs⟩) :
    msg' = { msg with keepalive := true } := by
  unfold decode at h
  rcases readInteger_cases s with ⟨-, e, he⟩ | ⟨hdr, s₁, hhdr, rfl, he⟩
  · rw [he] at h
    cases h
  · rw [he] at h
    dsimp only at h
    split_ifs at h with hmax hzero
    · cases h
    · cases h
      rfl
    · exact absurd (UInt32.not_lt.mp hmax) (by simpa using hzero)

/-- **`UnmarshalBinary` reads back keepalives only.** -/
theorem unmarshalBinary_iff {msg : Message} {data : List UInt8}
    (hm : msg.marshalBinary = some data) (hused : msg.used = msg) :
    Message.unmarshalBinary {} data = .ok msg.padded ↔ msg.keepalive = true := by
  constructor
  · intro h
    unfold Message.unmarshalBinary at h
    split at h
    · cases h
    · cases h
    · next msg' rest allocs hdecode =>
      split_ifs at h with hbuf
      rw [decode_zero_max hdecode] at h
      have hkeep := congrArg Message.keepalive (Unmarshaled.ok.inj h)
      exact hkeep.symm
  · intro hk
    have hmsg : msg = { keepalive := true } := by rw [← hused, Message.used, if_pos hk]
    subst hmsg
    cases hm
    decide

theorem keepalive_unmarshaled :
    Message.unmarshalBinary {} [0, 0, 0, 0] = .ok { keepalive := true } :=
  (@unmarshalBinary_iff { keepalive := true } [0, 0, 0, 0] (by decide) (by decide)).mpr rfl

/-- A `Choke`, which has no fields, is too long for `UnmarshalBinary`. -/
theorem choke_not_unmarshaled :
    Message.marshalBinary {} = some [0, 0, 0, 1, 0] ∧ Message.used {} = {} ∧
      Message.unmarshalBinary {} [0, 0, 0, 1, 0] = .failed .tooLong := by
  decide

end ReliableBT.Wire
