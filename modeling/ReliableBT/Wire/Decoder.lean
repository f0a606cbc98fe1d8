import ReliableBT.Wire.Message

/-!
# Decoding the peer wire (`peer_protocol/decoder.go`)

`decode` is `Decoder.Decode`. The stream is the list of bytes not read yet; the message is an
in-out parameter, since `Decode` writes into the caller's `Message` as it goes and leaves what it
wrote when it fails. Beside the returned error the outcome records what the function did to its
surroundings: the bytes left on the stream and the length of every buffer it had allocated.

The remaining length is an unsigned 32-bit register. Every branch of the type switch takes what
it reads off that register, before or after reading, and none looks whether there is enough in it
to take. What this comes to is `decode_framed_iff`: the message is framed (exactly the announced
bytes are consumed when `nil` is returned, and no buffer is larger than `MaxLength`) except in
the cases `Wraps` lists, in which

* an `Extended` message announces a length of one, so that reading the extension number takes the
  register from zero to `2 ^ 32 - 1`, the size of the payload buffer made next;
* a `Piece` message is shorter than its own header, and a pooled buffer is large enough for the
  wrapped length; or the pool makes a buffer that is itself larger than `MaxLength`.

The pool is `d.Pool`, whose `Get` hands out either a buffer put back earlier or a new one.

Out of scope: the text of the errors (each is a constructor), and read errors of the underlying
reader other than the end of the stream.
-/

open List

namespace ReliableBT.Wire

open ReliableBT.Bytes

/-! ## The decoder -/

/-- The errors `Decode` returns. -/
inductive DecodeError where
  /-- `reading message length: %w` -/
  | readingLength (e : IoError)
  /-- `message too long` -/
  | tooLong
  /-- An error of the reader, passed on as it is. -/
  | io (e : IoError)
  /-- `piece data longer than expected` -/
  | pieceTooLong
  /-- `reading piece data: %w` -/
  | readingPieceData (e : IoError)
  /-- `unknown message type %#v` -/
  | unknownType (c : UInt8)
  /-- `%v unused bytes in message type %v` -/
  | unusedBytes (length : UInt32) (type : MessageType)
  deriving Repr, DecidableEq

/-- What `Pool.Get` hands out: a slice of the first `len` bytes of a backing array, whose size is
the slice's capacity, and whether `New` made the array for this call. -/
structure PoolBuffer where
  backing : List UInt8
  len : Nat
  fresh : Bool
  deriving Repr, DecidableEq

/-- The capacity of the slice. -/
def PoolBuffer.cap (b : PoolBuffer) : Nat := b.backing.length

/-- `Decoder`, the reader apart; `pool` is the buffer the next `Get` hands out, `none` for a nil
`Pool`. -/
structure Decoder where
  maxLength : UInt32
  pool : Option PoolBuffer
  deriving Repr, DecidableEq

/-- How a call ends: it returns, with or without an error, or dereferences the nil pool. -/
inductive Exit where
  | returned (err : Option DecodeError)
  | panicked
  deriving Repr, DecidableEq

/-- What a call of `Decode` leaves behind. -/
structure Decoded where
  exit : Exit
  msg : Message
  rest : List UInt8
  allocs : List Nat
  deriving Repr, DecidableEq

/-- `Integer.Read`. -/
def readInteger (s : List UInt8) : Except IoError UInt32 × List UInt8 :=
  match readFull 4 s with
  | (.ok b, rest) => (.ok (UInt32.ofNat (getBE b)), rest)
  | (.error e, rest) => (.error e, rest)

/-- What a failed `io.ReadFull` leaves in its buffer: all the stream had, over the old bytes. -/
def overlay (s buf : List UInt8) : List UInt8 := s ++ buf.drop s.length

/-- `unmarshalBitfield`. -/
def unmarshalBitfield (b : List UInt8) : List Bool :=
  b.flatMap fun c => (range 8).map fun i => c.toNat.testBit (7 - i)

/-- The end of `Decode`, which every branch without a `return` of its own runs into. -/
def finish (err : Option DecodeError) (length : UInt32) (msg : Message) (rest : List UInt8)
    (allocs : List Nat) : Decoded :=
  match err with
  | some e => ⟨.returned (some e), msg, rest, allocs⟩
  | none =>
    if length ≠ 0 then ⟨.returned (some (.unusedBytes length msg.type)), msg, rest, allocs⟩
    else ⟨.returned none, msg, rest, allocs⟩

/-- The branch of `Have`, `AllowedFast` and `Suggest`. -/
def decodeIndex (length : UInt32) (msg : Message) (s : List UInt8) : Decoded :=
  match readInteger s with
  | (.ok i, rest) => finish none (length - 4) { msg with index := i } rest []
  | (.error e, rest) => finish (some (.io e)) (length - 4) msg rest []

/-- The branch of `Request`, `Cancel` and `Reject`: three integers, up to the first that fails. -/
def decodeRequest (length : UInt32) (msg : Message) (s : List UInt8) : Decoded :=
  match readInteger s with
  | (.error e, rest) => finish (some (.io e)) (length - 12) msg rest []
  | (.ok i, s₁) =>
    match readInteger s₁ with
    | (.error e, rest) => finish (some (.io e)) (length - 12) { msg with index := i } rest []
    | (.ok b, s₂) =>
      match readInteger s₂ with
      | (.error e, rest) =>
        finish (some (.io e)) (length - 12) { msg with index := i, begin := b } rest []
      | (.ok l, rest) =>
        finish none (length - 12) { msg with index := i, begin := b, length := l } rest []

/-- The branch of `Bitfield`. -/
def decodeBitfield (length : UInt32) (msg : Message) (s : List UInt8) : Decoded :=
  let b := replicate length.toNat 0
  match readFull length.toNat s with
  | (.ok b, rest) =>
    finish none 0 { msg with bitfield := unmarshalBitfield b } rest [length.toNat]
  | (.error e, rest) =>
    finish (some (.io e)) 0 { msg with bitfield := unmarshalBitfield (overlay s b) } rest
      [length.toNat]

/-- The branch of `Piece` from `length -= 8` on, with the slice `b` from the pool. -/
def decodePieceData (b : PoolBuffer) (length : UInt32) (msg : Message) (s : List UInt8) :
    Decoded :=
  let dataLen := (length - 8).toNat
  let allocs := if b.fresh then [b.cap] else []
  if b.cap < dataLen then
    ⟨.returned (some .pieceTooLong), { msg with piece := b.backing.take b.len }, s, allocs⟩
  else
    match readFull dataLen s with
    | (.error e, rest) =>
      ⟨.returned (some (.readingPieceData e)),
        { msg with piece := overlay s (b.backing.take dataLen) }, rest, allocs⟩
    | (.ok d, rest) => finish none 0 { msg with piece := d } rest allocs

/-- The branch of `Piece`. Its errors are returned from inside the branch. -/
def decodePiece (pool : Option PoolBuffer) (length : UInt32) (msg : Message) (s : List UInt8) :
    Decoded :=
  match readInteger s with
  | (.error e, rest) => ⟨.returned (some (.io e)), msg, rest, []⟩
  | (.ok i, s₁) =>
    match readInteger s₁ with
    | (.error e, rest) => ⟨.returned (some (.io e)), { msg with index := i }, rest, []⟩
    | (.ok b, s₂) =>
      match pool with
      | none => ⟨.panicked, { msg with index := i, begin := b }, s₂, []⟩
      | some buf => decodePieceData buf length { msg with index := i, begin := b } s₂

/-- The branch of `Extended`. `readByte` takes its byte off the length as well. -/
def decodeExtended (length : UInt32) (msg : Message) (s : List UInt8) : Decoded :=
  match readByte s with
  | (.error e, rest) => finish (some (.io e)) (length - 1) msg rest []
  | (.ok c, s₁) =>
    let size := (length - 1).toNat
    match readFull size s₁ with
    | (.ok b, rest) =>
      finish none 0 { msg with extendedID := c, extendedPayload := b } rest [size]
    | (.error _, rest) =>
      -- `io.EOF` is turned into `io.ErrUnexpectedEOF`, the only other error there is
      finish (some (.io .unexpectedEof)) 0
        { msg with extendedID := c, extendedPayload := overlay s₁ (replicate size 0) } rest
        [size]

/-- The branch of `Port`. -/
def decodePort (length : UInt32) (msg : Message) (s : List UInt8) : Decoded :=
  match readFull 2 s with
  | (.ok b, rest) =>
    finish none (length - 2) { msg with port := UInt16.ofNat (getBE b) } rest []
  | (.error e, rest) => finish (some (.io e)) (length - 2) msg rest []

/-- The type switch, with `length` already less the type byte. -/
def decodePayload (d : Decoder) (c : UInt8) (length : UInt32) (msg : Message)
    (s : List UInt8) : Decoded :=
  match MessageType.ofByte c with
  | .choke | .unchoke | .interested | .notInterested | .haveAll | .haveNone =>
    finish none length msg s []
  | .have_ | .allowedFast | .suggest => decodeIndex length msg s
  | .request | .cancel | .reject => decodeRequest length msg s
  | .bitfield => decodeBitfield length msg s
  | .piece => decodePiece d.pool length msg s
  | .extended => decodeExtended length msg s
  | .port => decodePort length msg s
  | .other _ => finish (some (.unknownType c)) length msg s []

/-- `Decode`. -/
def decode (d : Decoder) (msg : Message) (s : List UInt8) : Decoded :=
  match readInteger s with
  | (.error e, rest) => ⟨.returned (some (.readingLength e)), msg, rest, []⟩
  | (.ok length, s₁) =>
    if d.maxLength < length then ⟨.returned (some .tooLong), msg, s₁, []⟩
    else if length = 0 then ⟨.returned none, { msg with keepalive := true }, s₁, []⟩
    else
      match readByte s₁ with
      | (.error e, rest) => ⟨.returned (some (.io e)), msg, rest, []⟩
      | (.ok c, s₂) =>
        decodePayload d c (length - 1) { msg with type := MessageType.ofByte c } s₂

/-! ## Framing -/

/-- The outcome `o` of decoding `s` is framed: if `nil` was returned, then a four-byte length and
as many bytes as it says have been consumed and the length is within bounds; and no buffer larger
than `MaxLength` was allocated. -/
def Framed (d : Decoder) (s : List UInt8) (o : Decoded) : Prop :=
  (o.exit = .returned none →
    ∃ hdr body, s = hdr ++ body ++ o.rest ∧ hdr.length = 4 ∧ body.length = getBE hdr ∧
      getBE hdr ≤ d.maxLength.toNat) ∧
  ∀ n ∈ o.allocs, n ≤ d.maxLength.toNat

/-- `Framed` after the length and the type byte, with `length` more bytes to come. -/
def PayloadFramed (max length : Nat) (s : List UInt8) (o : Decoded) : Prop :=
  (o.exit = .returned none → ∃ body, s = body ++ o.rest ∧ body.length = length) ∧
  ∀ n ∈ o.allocs, n ≤ max

/-- The payloads on which the length register goes wrong: `s` follows the type byte `c`, and
`length` bytes of it belong to the message. -/
def PayloadWraps (d : Decoder) (c : UInt8) (length : Nat) (s : List UInt8) : Prop :=
  match MessageType.ofByte c, d.pool with
  | .extended, _ =>
    -- no room for the extension number: the payload is taken to be `2 ^ 32 - 1` bytes long
    length = 0 ∧ s ≠ [] ∧ (d.maxLength.toNat < 2 ^ 32 - 1 ∨ 2 ^ 32 ≤ s.length)
  | .piece, some b =>
    8 ≤ s.length ∧
      ((b.fresh = true ∧ d.maxLength.toNat < b.cap) ∨
        -- no room for index and begin, and the pooled buffer takes the wrapped length
        (length < 8 ∧ 2 ^ 32 + length - 8 ≤ b.cap ∧ 2 ^ 32 + length ≤ s.length))
  | _, _ => False

/-- The streams on which the length register goes wrong. -/
def Wraps (d : Decoder) (s : List UInt8) : Prop :=
  match s.drop 4 with
  | [] => False
  | c :: tail =>
    0 < getBE (s.take 4) ∧ getBE (s.take 4) ≤ d.maxLength.toNat ∧
      PayloadWraps d c (getBE (s.take 4) - 1) tail

variable {length : UInt32} {msg : Message} {rest : List UInt8} {allocs : List Nat} {max : Nat}
  {s : List UInt8} {k : UInt32} {body : List UInt8} {o : Decoded} {hdr : List UInt8} {d : Decoder}

@[simp] theorem finish_exit {err : Option DecodeError} :
    (finish err length msg rest allocs).exit = .returned none ↔ err = none ∧ length = 0 := by
  cases err with
  | some e => simp [finish]
  | none =>
    unfold finish
    by_cases h : length = 0 <;> simp [h]

@[simp] theorem finish_rest (err : Option DecodeError) (length : UInt32) (msg : Message)
    (rest : List UInt8) (allocs : List Nat) :
    (finish err length msg rest allocs).rest = rest := by
  cases err with
  | some e => rfl
  | none =>
    unfold finish
    by_cases h : length = 0 <;> simp [h]

@[simp] theorem finish_allocs (err : Option DecodeError) (length : UInt32) (msg : Message)
    (rest : List UInt8) (allocs : List Nat) :
    (finish err length msg rest allocs).allocs = allocs := by
  cases err with
  | some e => rfl
  | none =>
    unfold finish
    by_cases h : length = 0 <;> simp [h]

theorem readInteger_cases (s : List UInt8) :
    (s.length < 4 ∧ ∃ e, readInteger s = (.error e, [])) ∨
      ∃ b rest, b.length = 4 ∧ s = b ++ rest ∧
        readInteger s = (.ok (UInt32.ofNat (getBE b)), rest) := by
  unfold readInteger
  rcases readFull_cases 4 s with ⟨hlt, e, he⟩ | ⟨b, rest, hb, hs, he⟩
  · exact .inl ⟨hlt, e, by rw [he]⟩
  · exact .inr ⟨b, rest, hb, hs, by rw [he]⟩

/-! ### The branches that do not wrap -/

theorem finish_framed_of_error {length' : Nat} {e : DecodeError} (h : ∀ n ∈ allocs, n ≤ max) :
    PayloadFramed max length' s (finish (some e) length msg rest allocs) :=
  ⟨by simp, by simpa using h⟩

/-- A branch that reads `body` and then takes `k = body.length` off the register is framed: the
final check only lets it return `nil` when the register was `k`. -/
theorem finish_framed_of_sub (hk : body.length = k.toNat) :
    PayloadFramed max length.toNat (body ++ rest) (finish none (length - k) msg rest []) := by
  refine ⟨fun h => ?_, by simp⟩
  have hlen : length = k := by
    have hsub : length - k = 0 := (finish_exit.mp h).2
    grind
  exact ⟨body, by simp, by rw [hk, hlen]⟩

theorem decodeIndex_framed (max : Nat) (length : UInt32) (msg : Message) (s : List UInt8) :
    PayloadFramed max length.toNat s (decodeIndex length msg s) := by
  unfold decodeIndex
  rcases readInteger_cases s with ⟨-, e, he⟩ | ⟨b, rest, hb, rfl, he⟩
  · rw [he]
    exact finish_framed_of_error (by simp)
  · rw [he]
    exact finish_framed_of_sub hb

theorem decodePort_framed (max : Nat) (length : UInt32) (msg : Message) (s : List UInt8) :
    PayloadFramed max length.toNat s (decodePort length msg s) := by
  unfold decodePort
  rcases readFull_cases 2 s with ⟨-, e, he⟩ | ⟨b, rest, hb, rfl, he⟩
  · rw [he]
    exact finish_framed_of_error (by simp)
  · rw [he]
    exact finish_framed_of_sub hb

theorem decodeRequest_framed (max : Nat) (length : UInt32) (msg : Message) (s : List UInt8) :
    PayloadFramed max length.toNat s (decodeRequest length msg s) := by
  unfold decodeRequest
  rcases readInteger_cases s with ⟨-, e, he⟩ | ⟨b₁, s₁, h₁, rfl, he⟩
  · rw [he]
    exact finish_framed_of_error (by simp)
  rw [he]
  rcases readInteger_cases s₁ with ⟨-, e, he⟩ | ⟨b₂, s₂, h₂, rfl, he⟩
  · simp only [he]
    exact finish_framed_of_error (by simp)
  simp only [he]
  rcases readInteger_cases s₂ with ⟨-, e, he⟩ | ⟨b₃, s₃, h₃, rfl, he⟩
  · simp only [he]
    exact finish_framed_of_error (by simp)
  simp only [he]
  rw [← append_assoc b₂, ← append_assoc b₁]
  exact finish_framed_of_sub (by simp [h₁, h₂, h₃])

theorem decodeBitfield_framed (h : length.toNat ≤ max) (msg : Message) (s : List UInt8) :
    PayloadFramed max length.toNat s (decodeBitfield length msg s) := by
  unfold decodeBitfield
  rcases readFull_cases length.toNat s with ⟨-, e, he⟩ | ⟨b, rest, hb, rfl, he⟩
  · rw [he]
    exact finish_framed_of_error (by simpa using h)
  · rw [he]
    exact ⟨fun _ => ⟨b, by simp, hb⟩, by simpa using h⟩

/-! ### The branches that can wrap -/

theorem toNat_sub_of_le (h : k.toNat ≤ length.toNat) :
    (length - k).toNat = length.toNat - k.toNat := by
  have hlt := length.toNat_lt
  rw [UInt32.toNat_sub]
  omega

theorem toNat_sub_of_lt (h : length.toNat < k.toNat) :
    (length - k).toNat = 2 ^ 32 + length.toNat - k.toNat := by
  have hlt := k.toNat_lt
  rw [UInt32.toNat_sub]
  omega

theorem not_payloadFramed_of_length {length : Nat} (hexit : o.exit = .returned none)
    (hrest : o.rest = rest) (hne : body.length ≠ length) :
    ¬ PayloadFramed max length (body ++ rest) o := by
  intro h
  obtain ⟨body', hs, hlen⟩ := h.1 hexit
  rw [hrest] at hs
  exact hne (by rw [append_cancel_right hs, hlen])

theorem decodeExtended_framed_iff (hmax : length.toNat ≤ max) (msg : Message) (s : List UInt8) :
    PayloadFramed max length.toNat s (decodeExtended length msg s) ↔
      ¬ (length.toNat = 0 ∧ s ≠ [] ∧ (max < 2 ^ 32 - 1 ∨ 2 ^ 32 ≤ s.length)) := by
  unfold decodeExtended
  cases s with
  | nil => exact iff_of_true (finish_framed_of_error (by simp)) (by simp)
  | cons c s =>
    have hzero : length.toNat = 0 → (length - 1).toNat = 2 ^ 32 - 1 := fun h0 => by
      rw [toNat_sub_of_lt (by rw [h0]; decide), h0]
      rfl
    have hpos : length.toNat ≠ 0 → (length - 1).toNat = length.toNat - 1 := fun h0 =>
      toNat_sub_of_le (by change 1 ≤ length.toNat; omega)
    -- the size stays a variable: as a numeral it would be a buffer to evaluate
    generalize (length - 1).toNat = size at hzero hpos
    simp only [readByte]
    rcases readFull_cases size s with ⟨hlt, e, he⟩ | ⟨b, rest, hb, rfl, he⟩
    · rw [he]
      have hframed : PayloadFramed max length.toNat (c :: s)
          (finish (some (.io .unexpectedEof)) 0
            { msg with extendedID := c, extendedPayload := overlay s (replicate size 0) } []
            [size]) ↔ size ≤ max := by
        simp [PayloadFramed]
      rw [hframed, length_cons, and_iff_right (cons_ne_nil c s)]
      by_cases h0 : length.toNat = 0
      · have := hzero h0
        constructor <;> intro h <;> omega
      · have := hpos h0
        constructor <;> intro h <;> omega
    · rw [he]
      by_cases h0 : length.toNat = 0
      · have hsize := hzero h0
        refine iff_of_false ?_ (fun h => h ⟨h0, cons_ne_nil _ _, .inr ?_⟩)
        · rw [← cons_append]
          exact not_payloadFramed_of_length (by simp) (by simp) (by simp [h0])
        · rw [length_cons, length_append]
          omega
      · have hsize := hpos h0
        refine iff_of_true ⟨fun _ => ⟨c :: b, by simp, ?_⟩, ?_⟩ (fun h => h0 h.1)
        · rw [length_cons]
          omega
        · rw [finish_allocs]
          intro n hn
          rw [mem_singleton] at hn
          omega

theorem decodePieceData_framed_iff (b : PoolBuffer) (msg : Message) (hhdr : hdr.length = 8) :
    PayloadFramed max length.toNat (hdr ++ s) (decodePieceData b length msg s) ↔
      ¬ ((b.fresh = true ∧ max < b.cap) ∨
        (length.toNat < 8 ∧ 2 ^ 32 + length.toNat - 8 ≤ b.cap ∧
          2 ^ 32 + length.toNat ≤ hdr.length + s.length)) := by
  have hwrap : length.toNat < 8 → (length - 8).toNat = 2 ^ 32 + length.toNat - 8 :=
    fun h => toNat_sub_of_lt h
  have hle : 8 ≤ length.toNat → (length - 8).toNat = length.toNat - 8 :=
    fun h => toNat_sub_of_le h
  have hallocs : (∀ n ∈ (if b.fresh = true then [b.cap] else []), n ≤ max) ↔
      ¬ (b.fresh = true ∧ max < b.cap) := by
    cases b.fresh <;> simp
  unfold decodePieceData
  generalize (length - 8).toNat = dataLen at hwrap hle
  rw [not_or, ← hallocs]
  by_cases hcap : b.cap < dataLen
  · rw [if_pos hcap]
    refine ⟨fun h => ⟨h.2, ?_⟩, fun h => ⟨by simp, h.1⟩⟩
    rintro ⟨h8, hcap', -⟩
    have := hwrap h8
    omega
  · rw [if_neg hcap]
    rcases readFull_cases dataLen s with ⟨hlt, e, he⟩ | ⟨bs, rest, hbs, rfl, he⟩
    · rw [he]
      refine ⟨fun h => ⟨h.2, ?_⟩, fun h => ⟨by simp, h.1⟩⟩
      rintro ⟨h8, -, hlen⟩
      have := hwrap h8
      omega
    · rw [he]
      have hlen : (hdr ++ bs).length = 8 + dataLen := by rw [length_append, hhdr, hbs]
      rw [← append_assoc]
      by_cases h8 : length.toNat < 8
      · have hdata := hwrap h8
        refine iff_of_false ?_ (fun h => h.2 ⟨h8, by omega, ?_⟩)
        · exact not_payloadFramed_of_length (by simp) (by simp) (by omega)
        · rw [length_append]
          omega
      · have hdata := hle (Nat.le_of_not_lt h8)
        refine ⟨fun h => ⟨by simpa using h.2, fun h' => h8 h'.1⟩, fun h => ⟨fun _ => ?_, ?_⟩⟩
        · exact ⟨hdr ++ bs, by simp, by omega⟩
        · simpa using h.1

theorem decodePiece_framed_iff (pool : Option PoolBuffer) (msg : Message) (s : List UInt8) :
    PayloadFramed max length.toNat s (decodePiece pool length msg s) ↔
      ∀ b, pool = some b → ¬ (8 ≤ s.length ∧ ((b.fresh = true ∧ max < b.cap) ∨
        (length.toNat < 8 ∧ 2 ^ 32 + length.toNat - 8 ≤ b.cap ∧
          2 ^ 32 + length.toNat ≤ s.length))) := by
  unfold decodePiece
  rcases readInteger_cases s with ⟨hlt, e, he⟩ | ⟨b₁, s₁, h₁, rfl, he⟩
  · rw [he]
    exact iff_of_true ⟨by simp, by simp⟩ fun b _ h => by omega
  rw [he]
  rcases readInteger_cases s₁ with ⟨hlt, e, he⟩ | ⟨b₂, s₂, h₂, rfl, he⟩
  · simp only [he]
    refine iff_of_true ⟨by simp, by simp⟩ fun b _ h => ?_
    rw [length_append] at h
    omega
  simp only [he]
  cases pool with
  | none => exact iff_of_true ⟨by simp, by simp⟩ (by simp)
  | some b =>
    have h8 : (b₁ ++ b₂).length = 8 := by rw [length_append, h₁, h₂]
    rw [← append_assoc, decodePieceData_framed_iff b _ h8, ← length_append]
    have hle : 8 ≤ (b₁ ++ b₂ ++ s₂).length := by
      rw [length_append, h8]
      omega
    simp only [Option.some.injEq, forall_eq', hle, true_and]

theorem decodePayload_framed_iff (hmax : length.toNat ≤ d.maxLength.toNat) (c : UInt8)
    (msg : Message) (s : List UInt8) :
    PayloadFramed d.maxLength.toNat length.toNat s (decodePayload d c length msg s) ↔
      ¬ PayloadWraps d c length.toNat s := by
  have hplain : PayloadFramed d.maxLength.toNat length.toNat s (finish none length msg s []) :=
    ⟨fun h => ⟨[], by simp, by simp [(finish_exit.mp h).2]⟩, by simp⟩
  unfold decodePayload PayloadWraps
  cases MessageType.ofByte c with
  | choke | unchoke | interested | notInterested | haveAll | haveNone =>
    exact iff_of_true hplain not_false
  | have_ | allowedFast | suggest =>
    exact iff_of_true (decodeIndex_framed _ length msg s) not_false
  | request | cancel | reject =>
    exact iff_of_true (decodeRequest_framed _ length msg s) not_false
  | bitfield => exact iff_of_true (decodeBitfield_framed hmax msg s) not_false
  | port => exact iff_of_true (decodePort_framed _ length msg s) not_false
  | other b => exact iff_of_true (finish_framed_of_error (by simp)) not_false
  | extended => exact decodeExtended_framed_iff hmax msg s
  | piece =>
    rw [decodePiece_framed_iff]
    cases d.pool with
    | none => simp
    | some b => simp

theorem framed_iff_payloadFramed {c : UInt8} (hhdr : hdr.length = 4) (hpos : 0 < getBE hdr)
    (hmax : getBE hdr ≤ d.maxLength.toNat) :
    Framed d (hdr ++ c :: s) o ↔ PayloadFramed d.maxLength.toNat (getBE hdr - 1) s o := by
  refine and_congr_left fun _ => imp_congr_right fun _ => ?_
  constructor
  · rintro ⟨hdr', body, hs, hhdr', hbody, -⟩
    rw [append_assoc] at hs
    obtain ⟨rfl, htail⟩ := append_inj hs (by rw [hhdr, hhdr'])
    cases body with
    | nil => exact absurd hpos (by simp [← hbody])
    | cons c' body =>
      rw [cons_append, cons.injEq] at htail
      exact ⟨body, htail.2, by rw [← hbody, length_cons, Nat.add_sub_cancel]⟩
  · rintro ⟨body, hs, hbody⟩
    exact ⟨hdr, c :: body, by rw [hs]; simp, hhdr, by rw [length_cons]; omega, hmax⟩

theorem wraps_append_iff (hhdr : hdr.length = 4) :
    Wraps d (hdr ++ s) ↔ 0 < getBE hdr ∧ getBE hdr ≤ d.maxLength.toNat ∧
      ∃ c tail, s = c :: tail ∧ PayloadWraps d c (getBE hdr - 1) tail := by
  rw [Wraps, drop_left' hhdr, take_left' hhdr]
  cases s with
  | nil => simp
  | cons c tail => simp

/-- **Framing.** For every decoder, message and stream, `Decode` is framed exactly when the
stream does not wrap its length register: it consumes `4 + L` bytes for the announced
`L ≤ MaxLength` whenever it returns `nil`, and allocates no buffer larger than `MaxLength`. -/
theorem decode_framed_iff (d : Decoder) (msg : Message) (s : List UInt8) :
    Framed d s (decode d msg s) ↔ ¬ Wraps d s := by
  unfold decode
  rcases readInteger_cases s with ⟨hlt, e, he⟩ | ⟨hdr, s₁, hhdr, rfl, he⟩
  · rw [he]
    refine iff_of_true ⟨by simp, by simp⟩ ?_
    rw [Wraps, drop_eq_nil_of_le (by omega)]
    exact not_false
  have hlen : (UInt32.ofNat (getBE hdr)).toNat = getBE hdr := by
    have hlt := getBE_lt hdr
    rw [hhdr] at hlt
    exact UInt32.toNat_ofNat_of_lt' hlt
  rw [he, wraps_append_iff hhdr]
  generalize UInt32.ofNat (getBE hdr) = length at hlen
  simp only [UInt32.lt_iff_toNat_lt, ← UInt32.toNat_inj, UInt32.toNat_zero, hlen]
  split_ifs with hmax hzero
  · exact iff_of_true ⟨by simp, by simp⟩ fun h => by omega
  · refine iff_of_true ⟨fun _ => ⟨hdr, [], by simp, hhdr, by simp [hzero], by omega⟩, by simp⟩ ?_
    rintro ⟨hpos, -⟩
    omega
  cases s₁ with
  | nil => exact iff_of_true ⟨by simp [readByte], by simp [readByte]⟩ (by simp)
  | cons c tail =>
    have hpos : 0 < getBE hdr := Nat.pos_of_ne_zero hzero
    have hle : getBE hdr ≤ d.maxLength.toNat := Nat.le_of_not_lt hmax
    have hsub : (length - 1).toNat = getBE hdr - 1 := by
      rw [toNat_sub_of_le (by rw [hlen]; exact hpos), hlen]
      rfl
    simp only [readByte, cons.injEq]
    rw [framed_iff_payloadFramed hhdr hpos hle, ← hsub, decodePayload_framed_iff (by omega)]
    simp [hpos, hle]

/-- A six-byte stream with `MaxLength = 64 KiB`: an `Extended` message announces one byte, and a
buffer of `2 ^ 32 - 1` bytes is made for its payload. -/
theorem decode_short_extended_not_framed :
    (decode ⟨65536, none⟩ {} [0, 0, 0, 1, 20, 0]).allocs = [4294967295] ∧
      ¬ Framed ⟨65536, none⟩ [0, 0, 0, 1, 20, 0] (decode ⟨65536, none⟩ {} [0, 0, 0, 1, 20, 0]) := by
  have hallocs : (decode ⟨65536, none⟩ {} [0, 0, 0, 1, 20, 0]).allocs = [4294967295] := by
    decide
  refine ⟨hallocs, fun h => ?_⟩
  have hle := h.2 4294967295 (by rw [hallocs]; exact mem_singleton_self _)
  exact absurd hle (by decide)

end ReliableBT.Wire
