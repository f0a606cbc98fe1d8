import ReliableBT.Mse.Stream

/-!
# The two sides of the encrypted handshake (`mse/mse.go`)

Both sides are processes on the connection. What they draw at random (the secret exponents, the
pads and their lengths) is a parameter of theirs. Of SHA-1 only the length of its sums is used, of
RC4 only that its key determines the keystream (`Primitives`); the exchange of keys is computed as
in the source, and both sides get the same secret (`secret_comm`).

`postWrite` leaves the writing to a goroutine that writes everything in order, and `Do` returns when
it is done. The model has the bytes on their way as soon as they are posted, and they may arrive at
any time later. Writing does not fail.

* `initiateHandshake_follows`, `receiveHandshake_follows`: what each side sends and reads, and how
  it ends, if the other side sends what it should.
-/

open List ReliableBT.Mse.Source Nat

namespace ReliableBT.Mse

open ReliableBT.Bytes (IoError putBE getBE length_putBE)
open ReliableBT.Session

/-! ## Hashes, keys and the shared secret -/

/-- SHA-1, and the keystream of RC4 for a key. -/
structure Primitives where
  sha1 : List UInt8 → List UInt8
  rc4 : List UInt8 → ℕ → UInt8
  length_sha1 : ∀ bs, (sha1 bs).length = 20

/-- `"req1"` -/
def req1 : List UInt8 := [114, 101, 113, 49]

/-- `"req2"` -/
def req2 : List UInt8 := [114, 101, 113, 50]

/-- `"req3"` -/
def req3 : List UInt8 := [114, 101, 113, 51]

/-- `"keyA"` and `"keyB"` -/
def cipherKey (initer : Bool) : List UInt8 := [107, 101, 121, if initer then 65 else 66]

/-- Verification constant "VC" which is all zeroes in the bittorrent implementation. -/
def vc : List UInt8 := replicate 8 0

@[simp] theorem length_vc : vc.length = 8 := rfl

/-- Prime P according to the spec: 192 hexadecimal digits, 64 in a line -/
def primeP : ℕ :=
  (0xFFFFFFFFFFFFFFFFC90FDAA22168C234C4C6628B80DC1CD129024E088A67CC74 * 2 ^ 256 +
   0x020BBEA63B139B22514A08798E3404DDEF9519B3CD3A431B302B0A6DF25F1437) * 2 ^ 256 +
   0x4FE1356D6D51C245E485B576625E7EC6F44C42E9A63A36210000000000090563

/-- G, the generator. -/
def generatorG : ℕ := 2

variable (P : Primitives)

/-- `hash` -/
def hash (parts : List (List UInt8)) : List UInt8 := P.sha1 parts.flatten

/-- `newEncrypt`; the first 1024 bytes of the keystream are not used. -/
def newEncrypt (initer : Bool) (s skey : List UInt8) : Cipher :=
  Cipher.skip ⟨P.rc4 (hash P [cipherKey initer, s, skey]), 0⟩ 1024

/-- `xor` -/
def xor (a b : List UInt8) : List UInt8 := zipWith (· ^^^ ·) a b

/-- The public key for the exponent `x`, as `postY` sends it: padded on the left to 96 bytes -/
def publicKey (x : ℕ) : List UInt8 := putBE 96 (generatorG ^ x % primeP)

/-- What `establishS` makes of its own exponent and the public key of the other side. -/
def sharedSecret (x : ℕ) (y : List UInt8) : List UInt8 := putBE 96 (getBE y ^ x % primeP)

@[simp] theorem length_publicKey (x : ℕ) : (publicKey x).length = 96 := length_putBE 96 _

theorem primeP_lt : primeP < 256 ^ 96 := by decide

theorem sharedSecret_comm (x y : ℕ) :
    sharedSecret x (publicKey y) = sharedSecret y (publicKey x) := by
  have hlt : ∀ z, generatorG ^ z % primeP < 256 ^ 96 := fun z =>
    (mod_lt _ (by decide)).trans primeP_lt
  simp only [sharedSecret, publicKey, Bytes.getBE_putBE_of_lt (hlt _), ← pow_mod, ← pow_mul,
    mul_comm]

/-! ## Steps that may fail -/

/-- The errors of the handshake. -/
inductive Error where
  /-- "error while establishing secret: error reading Y: …" -/
  | establishing (e : IoError)
  /-- "initial payload too large" -/
  | payloadTooLarge
  /-- "failed to synchronize on VC" -/
  | noVC
  /-- "error reading until VC: …" -/
  | readingVC (e : IoError)
  /-- "receiver chose unsupported method: …" -/
  | unsupportedMethod (method : UInt32)
  /-- "failed to synchronize on S hash" -/
  | noSHash
  /-- `ErrNoSecretKeyMatch`: "no skey matched" -/
  | noSecretKeyMatch
  /-- "chosen crypto method is not supported" -/
  | notSupported
  /-- an error of the connection, as it is -/
  | io (e : IoError)
  deriving DecidableEq, Repr

/-- A part of the handshake. -/
def Hs (α : Type) : Type := Proc (Except Error α)

instance : Monad Hs where
  pure a := Proc.ret (.ok a)
  bind x f := Proc.bind x fun
    | .ok a => f a
    | .error e => .ret (.error e)

variable {α β : Type}

/-- Return with an error. -/
def fail (e : Error) : Hs α := Proc.ret (.error e)

/-- `postWrite` -/
def postWrite (bs : List UInt8) : Hs Unit := Proc.send bs (.ret (.ok ()))

/-- Read, and return with an error if that fails. -/
def orFail (f : IoError → Error) (p : Proc (Except IoError α × Source)) : Hs (α × Source) :=
  Proc.bind p fun (res, r) => .ret (match res with
    | .ok a => .ok (a, r)
    | .error e => .error (f e))

/-- Read, and go on if that fails. -/
def attempt (p : Proc (Except IoError α × Source)) : Hs (Except IoError α × Source) :=
  Proc.bind p fun res => .ret (.ok res)

/-- `unmarshal` of `n` bytes -/
def unmarshal (r : Source) (n : ℕ) : Hs (List UInt8 × Source) := orFail .io (readFull r n)

/-- The connection itself. -/
def conn : Source := ⟨none, none⟩

section Rules

variable {s t : List Event} {bs : List UInt8} {res : Except Error β}

theorem follows_hsBind {x : Hs α} {f : α → Hs β} {a : α} (hx : Follows x s (.ok a))
    (hf : Follows (f a) t res) : Follows (x >>= f : Hs β) (s ++ t) res :=
  hx.bind hf

theorem follows_postWrite {f : Unit → Hs β} (hf : Follows (f ()) t res) :
    Follows (postWrite bs >>= f : Hs β) (.out bs :: t) res :=
  ⟨t, rfl, hf⟩

theorem follows_orFail {g : IoError → Error} {p : Proc (Except IoError α × Source)}
    {f : α × Source → Hs β} {a : α} {r : Source} (hp : Follows p s (.ok a, r))
    (hf : Follows (f (a, r)) t res) : Follows (orFail g p >>= f : Hs β) (s ++ t) res := by
  have horFail : Follows (orFail g p) (s ++ []) (.ok (a, r)) := hp.bind ⟨rfl, rfl⟩
  rw [append_nil] at horFail
  exact follows_hsBind horFail hf

theorem follows_attempt {p : Proc (Except IoError α × Source)}
    {f : Except IoError α × Source → Hs β} {a : Except IoError α × Source} (hp : Follows p s a)
    (hf : Follows (f a) t res) : Follows (attempt p >>= f : Hs β) (s ++ t) res := by
  have hattempt : Follows (attempt p) (s ++ []) (.ok a) := hp.bind ⟨rfl, rfl⟩
  rw [append_nil] at hattempt
  exact follows_hsBind hattempt hf

end Rules

/-! ## The two sides -/

/-- What a side reads from and writes to in the end: bytes that are read before those of the
connection, and the ciphers of the two directions if they are encrypted. -/
structure ReadWriter where
  held : List UInt8
  reader : Option Cipher
  writer : Option Cipher

/-- `HandshakeResult` -/
structure HandshakeResult where
  rw : ReadWriter
  method : UInt32
  secretKey : List UInt8

/-- `CryptoMethodPlaintext` -/
def cryptoMethodPlaintext : UInt32 := 1

/-- `CryptoMethodRC4` -/
def cryptoMethodRC4 : UInt32 := 2

/-- `DefaultCryptoSelector`: we prefer plaintext for performance reasons. -/
def defaultCryptoSelector (provided : UInt32) : UInt32 :=
  if provided &&& cryptoMethodPlaintext ≠ 0 then cryptoMethodPlaintext else cryptoMethodRC4

/-- `handshake`, for the side that initiates; `pad` follows its public key, and `padLen` zeros are
in its header. -/
structure Initiator where
  x : ℕ
  pad : List UInt8
  padLen : ℕ
  skey : List UInt8
  ia : List UInt8
  cryptoProvides : UInt32
  pad_le : pad.length ≤ 512
  padLen_le : padLen ≤ 512

/-- `handshake`, for the side that receives -/
structure Receiver where
  x : ℕ
  pad : List UInt8
  padLen : ℕ
  skeys : List (List UInt8)
  chooseMethod : UInt32 → UInt32
  pad_le : pad.length ≤ 512
  padLen_le : padLen ≤ 512

/-- `establishS` -/
def establishS (x : ℕ) : Hs (List UInt8) := do
  postWrite (publicKey x)
  let (b, _) ← orFail .establishing (readFull conn 96)
  pure (sharedSecret x b)

/-- What the initiator encrypts and sends. -/
def Initiator.header (h : Initiator) : List UInt8 :=
  vc ++ putBE 4 h.cryptoProvides.toNat ++ putBE 2 h.padLen ++ replicate h.padLen 0 ++
    putBE 2 h.ia.length ++ h.ia

/-- The end of `initerSteps`: what the method that the receiver chose means -/
def initerSelect (h : Initiator) (method : UInt32) (r : Source) (e : Cipher) :
    Hs HandshakeResult :=
  let selected := method &&& h.cryptoProvides
  if selected = cryptoMethodRC4 then pure ⟨⟨[], r.cipher, some e⟩, selected, h.skey⟩
  else if selected = cryptoMethodPlaintext then pure ⟨⟨[], none, none⟩, selected, h.skey⟩
  else fail (.unsupportedMethod method)

/-- `initerSteps` -/
def initerSteps (h : Initiator) (s : List UInt8) : Hs HandshakeResult := do
  postWrite (hash P [req1, s])
  postWrite (xor (hash P [req2, h.skey]) (hash P [req3, s]))
  if 65535 < h.ia.length then fail .payloadTooLarge
  else do
    let e := newEncrypt P true s h.skey
    postWrite (e.xorKeyStream h.header)
    let bC := newEncrypt P false s h.skey
    let _ ← orFail (fun
      | .eof => .noVC
      | e => .readingVC e) (readUntil 520 (bC.xorKeyStream vc))
    let (method, r) ← unmarshal ⟨none, some (bC.skip 8)⟩ 4
    let (padLen, r) ← unmarshal r 2
    let (_, r) ← orFail .io (copyN r (getBE padLen))
    initerSelect h (.ofNat (getBE method)) r (e.skip h.header.length)

/-- What the receiver encrypts and sends: the constant as it got it, the method, a pad -/
def Receiver.reply (h : Receiver) (vc : List UInt8) (chosen : UInt32) : List UInt8 :=
  vc ++ putBE 4 chosen.toNat ++ putBE 2 h.padLen ++ replicate h.padLen 0

/-- The end of `receiverSteps`: the reply, and what the chosen method means -/
def receiverReply (h : Receiver) (s skey vc : List UInt8) (chosen : UInt32)
    (ia : List UInt8) (r : Source) : Hs HandshakeResult := do
  let w := newEncrypt P false s skey
  postWrite (w.xorKeyStream (h.reply vc chosen))
  if chosen = cryptoMethodRC4 then
    pure ⟨⟨ia, r.cipher, some (w.skip (h.reply vc chosen).length)⟩, chosen, skey⟩
  else if chosen = cryptoMethodPlaintext then pure ⟨⟨ia, none, none⟩, chosen, skey⟩
  else fail .notSupported

/-- `unmarshal(r, &lenIA)`, whose error is ignored: a number that was not read is zero -/
def lenIA : Except IoError (List UInt8) → ℕ
  | .ok bs => getBE bs
  | .error _ => 0

/-- `unmarshal(r, h.ia)`, whose error is ignored: the bytes that were not read are zero -/
def bytesIA (n : ℕ) : Except IoError (List UInt8) → List UInt8
  | .ok bs => bs
  | .error _ => replicate n 0

/-- The initial payload of `n` bytes, as `receiverSteps` reads it -/
def receiverIA (r : Source) (n : ℕ) : Hs (List UInt8 × Source) :=
  if n ≠ 0 then do
    let (res, r) ← attempt (readFull r n)
    pure (bytesIA n res, r)
  else pure ([], r)

/-- The initial payload, with its length before it -/
def receiverPayload (r : Source) : Hs (List UInt8 × Source) := do
  let (res, r) ← attempt (readFull r 2)
  receiverIA r (lenIA res)

/-- `receiverSteps`, from the key on that was found -/
def receiverHeader (h : Receiver) (s skey : List UInt8) :
    Hs HandshakeResult := do
  let (vc, r) ← unmarshal ⟨none, some (newEncrypt P true s skey)⟩ 8
  let (provides, r) ← unmarshal r 4
  let (padLen, r) ← unmarshal r 2
  let (_, r) ← orFail .io (copyN r (getBE padLen))
  let (ia, r) ← receiverPayload r
  receiverReply P h s skey vc (h.chooseMethod (.ofNat (getBE provides))) ia r

/-- `receiverSteps` -/
def receiverSteps (h : Receiver) (s : List UInt8) : Hs HandshakeResult := do
  let _ ← orFail (fun
    | .eof => .noSHash
    | e => .io e) (readUntil 532 (hash P [req1, s]))
  let (b, _) ← orFail .io (readFull conn 20)
  match h.skeys.find? fun skey => xor (hash P [req2, skey]) (hash P [req3, s]) = b with
  | none => fail .noSecretKeyMatch
  | some skey => receiverHeader P h s skey

/-- `InitiateHandshake` -/
def initiateHandshake (h : Initiator) : Hs HandshakeResult := do
  let s ← establishS h.x
  postWrite h.pad
  initerSteps P h s

/-- `ReceiveHandshakeEx` -/
def receiveHandshake (h : Receiver) : Hs HandshakeResult := do
  let s ← establishS h.x
  postWrite h.pad
  receiverSteps P h s

/-! ## What each side sends and reads -/

section Scripts

variable {P : Primitives} {A : Initiator} {B : Receiver} {s y ia : List UInt8} {m : UInt32}

/-- The ends of the two directions for a method. -/
def ReadWriter.ofMethod (m : UInt32) (held : List UInt8) (reader writer : Option Cipher) :
    ReadWriter :=
  if m = cryptoMethodRC4 then ⟨held, reader, writer⟩ else ⟨held, none, none⟩

/-- The methods that the handshake knows. -/
def Supported (m : UInt32) : Prop := m = cryptoMethodPlaintext ∨ m = cryptoMethodRC4

instance (m : UInt32) : Decidable (Supported m) := inferInstanceAs (Decidable (_ ∨ _))

theorem establishS_follows {x : ℕ} (hy : y.length = 96) :
    Follows (establishS x) (.out (publicKey x) :: inps y) (.ok (sharedSecret x y)) := by
  rw [← append_nil (inps y)]
  exact follows_postWrite (follows_orFail
    (readFull_follows (r := conn) (allows_of_limit rfl) hy) ⟨rfl, rfl⟩)

theorem initerSelect_follows {r : Source} {e : Cipher} (hm : Supported m)
    (hprovides : m &&& A.cryptoProvides = m) :
    Follows (initerSelect A m r e) [] (.ok ⟨.ofMethod m [] r.cipher (some e), m, A.skey⟩) := by
  unfold initerSelect ReadWriter.ofMethod
  rw [hprovides]
  rcases hm with rfl | rfl
  · exact ⟨rfl, rfl⟩
  · exact ⟨rfl, rfl⟩

theorem Receiver.length_reply : (B.reply vc m).length = 8 + 4 + 2 + B.padLen := by
  simp [reply]
  omega

theorem Receiver.code_reply (r : Source) : code r.cipher (B.reply vc m) =
    code r.cipher vc ++ (code (r.skip 8).cipher (putBE 4 m.toNat) ++
      (code ((r.skip 8).skip 4).cipher (putBE 2 B.padLen) ++
        code (((r.skip 8).skip 4).skip 2).cipher (replicate B.padLen 0))) := by
  rw [reply, append_assoc, append_assoc, Source.code_append, Source.code_append,
    Source.code_append, length_vc, length_putBE, length_putBE]

theorem initerSteps_follows (hia : A.ia.length ≤ 65535) (hm : Supported m)
    (hprovides : m &&& A.cryptoProvides = m)
    (hsync : FirstAtEnd ((newEncrypt P false s A.skey).xorKeyStream vc)
      (B.pad ++ (newEncrypt P false s A.skey).xorKeyStream vc)) :
    Follows (initerSteps P A s)
      (.out (hash P [req1, s]) :: .out (xor (hash P [req2, A.skey]) (hash P [req3, s])) ::
        .out ((newEncrypt P true s A.skey).xorKeyStream A.header) ::
          inps (B.pad ++ (newEncrypt P false s A.skey).xorKeyStream (B.reply vc m)))
      (.ok ⟨.ofMethod m [] (some ((newEncrypt P false s A.skey).skip (B.reply vc m).length))
        (some ((newEncrypt P true s A.skey).skip A.header.length)), m, A.skey⟩) := by
  let r : Source := ⟨none, some (newEncrypt P false s A.skey)⟩
  have hscript : inps (B.pad ++ (newEncrypt P false s A.skey).xorKeyStream (B.reply vc m)) =
      inps (B.pad ++ (newEncrypt P false s A.skey).xorKeyStream vc) ++
        (inps (code (r.skip 8).cipher (putBE 4 m.toNat)) ++
          (inps (code ((r.skip 8).skip 4).cipher (putBE 2 B.padLen)) ++
            (inps (code (((r.skip 8).skip 4).skip 2).cipher (replicate B.padLen 0)) ++ []))) := by
    have hreply : (newEncrypt P false s A.skey).xorKeyStream (B.reply vc m) = _ :=
      Receiver.code_reply r
    rw [hreply]
    simp only [inps_append, append_assoc, append_nil]
    rfl
  rw [hscript, Receiver.length_reply]
  refine follows_postWrite (follows_postWrite ?_)
  rw [if_neg (by omega)]
  have hlength : (B.pad ++ (newEncrypt P false s A.skey).xorKeyStream vc).length ≤ 520 := by
    have hpad := B.pad_le
    simp only [length_append, Cipher.length_xorKeyStream, length_vc]
    omega
  have hread := readUntil_follows hsync (ne_nil_of_length_pos (by simp)) hlength
  -- the search is kept from being unfolded to its 520 steps
  dsimp only
  generalize readUntil 520 _ = search at hread ⊢
  refine follows_postWrite (follows_orFail hread ?_)
  refine follows_orFail (readFull_follows (allows_of_limit rfl) (length_putBE 4 _)) ?_
  refine follows_orFail (readFull_follows (allows_of_limit rfl) (length_putBE 2 _)) ?_
  have hpadLen := B.padLen_le
  dsimp only
  rw [Bytes.getBE_putBE_of_lt (by omega), Bytes.getBE_putBE_of_lt m.toNat_lt, UInt32.ofNat_toNat]
  refine follows_orFail (copyN_follows (allows_of_limit rfl) (by simp)) ?_
  change Follows (initerSelect A m ((((r.skip 8).skip 4).skip 2).skip B.padLen) _) _ _
  simp only [Source.skip_skip]
  exact initerSelect_follows hm hprovides

theorem receiverReply_follows {skey : List UInt8} {r : Source} (hm : Supported m) :
    Follows (receiverReply P B s skey vc m ia r)
      [.out ((newEncrypt P false s skey).xorKeyStream (B.reply vc m))]
      (.ok ⟨.ofMethod m ia r.cipher
        (some ((newEncrypt P false s skey).skip (B.reply vc m).length)), m, skey⟩) := by
  refine follows_postWrite ?_
  unfold ReadWriter.ofMethod
  rcases hm with rfl | rfl
  · exact ⟨rfl, rfl⟩
  · exact ⟨rfl, rfl⟩

theorem receiverIA_follows {r : Source} (hr : r.Allows ia.length) :
    Follows (receiverIA r ia.length) (inps (code r.cipher ia)) (.ok (ia, r.skip ia.length)) := by
  unfold receiverIA
  split
  · rw [← append_nil (inps _)]
    exact follows_attempt (readFull_follows hr rfl) ⟨rfl, rfl⟩
  · rename_i h0
    obtain rfl : ia = [] := by simpa using h0
    exact ⟨by simp, by simp [r.skip_zero]⟩

theorem receiverPayload_follows {r : Source} (hr : r.limit = none) (hia : ia.length ≤ 65535) :
    Follows (receiverPayload r)
      (inps (code r.cipher (putBE 2 ia.length)) ++ inps (code (r.skip 2).cipher ia))
      (.ok (ia, (r.skip 2).skip ia.length)) := by
  refine follows_attempt (readFull_follows (allows_of_limit hr) (length_putBE 2 _)) ?_
  change Follows (receiverIA (r.skip 2) (getBE (putBE 2 ia.length))) _ _
  rw [Bytes.getBE_putBE_of_lt (by omega)]
  exact receiverIA_follows (Source.allows_of_limit (by simp [Source.skip, hr]))

theorem Initiator.length_header : A.header.length = 8 + 4 + 2 + A.padLen + 2 + A.ia.length := by
  simp [header]
  omega

theorem Initiator.code_header (r : Source) : code r.cipher A.header =
    code r.cipher vc ++ (code (r.skip 8).cipher (putBE 4 A.cryptoProvides.toNat) ++
      (code ((r.skip 8).skip 4).cipher (putBE 2 A.padLen) ++
        (code (((r.skip 8).skip 4).skip 2).cipher (replicate A.padLen 0) ++
          (code ((((r.skip 8).skip 4).skip 2).skip A.padLen).cipher (putBE 2 A.ia.length) ++
            code (((((r.skip 8).skip 4).skip 2).skip A.padLen).skip 2).cipher A.ia)))) := by
  rw [header, append_assoc, append_assoc, append_assoc, append_assoc,
    Source.code_append, Source.code_append, Source.code_append, Source.code_append,
    Source.code_append, length_vc, length_putBE, length_putBE, length_putBE,
    length_replicate]

theorem receiverHeader_follows (hia : A.ia.length ≤ 65535)
    (hm : Supported (B.chooseMethod A.cryptoProvides)) :
    Follows (receiverHeader P B s A.skey)
      (inps ((newEncrypt P true s A.skey).xorKeyStream A.header) ++
        [.out ((newEncrypt P false s A.skey).xorKeyStream
          (B.reply vc (B.chooseMethod A.cryptoProvides)))])
      (.ok ⟨.ofMethod (B.chooseMethod A.cryptoProvides) A.ia
        (some ((newEncrypt P true s A.skey).skip A.header.length))
        (some ((newEncrypt P false s A.skey).skip
          (B.reply vc (B.chooseMethod A.cryptoProvides)).length)),
        B.chooseMethod A.cryptoProvides, A.skey⟩) := by
  let r : Source := ⟨none, some (newEncrypt P true s A.skey)⟩
  have hheader : (newEncrypt P true s A.skey).xorKeyStream A.header = _ := Initiator.code_header r
  rw [hheader, Initiator.length_header]
  simp only [inps_append, append_assoc]
  refine follows_orFail (readFull_follows (allows_of_limit rfl) length_vc) ?_
  refine follows_orFail (readFull_follows (allows_of_limit rfl) (length_putBE 4 _)) ?_
  refine follows_orFail (readFull_follows (allows_of_limit rfl) (length_putBE 2 _)) ?_
  have hpadLen := A.padLen_le
  dsimp only
  rw [Bytes.getBE_putBE_of_lt (by omega), Bytes.getBE_putBE_of_lt A.cryptoProvides.toNat_lt,
    UInt32.ofNat_toNat]
  refine follows_orFail (copyN_follows (allows_of_limit rfl) (by simp)) ?_
  rw [← append_assoc]
  refine follows_hsBind (receiverPayload_follows rfl hia) ?_
  change Follows (receiverReply P B s A.skey vc _ A.ia
    ((((((r.skip 8).skip 4).skip 2).skip A.padLen).skip 2).skip A.ia.length)) _ _
  simp only [Source.skip_skip]
  exact receiverReply_follows hm

theorem eq_of_xor_eq {a b k : List UInt8} (ha : a.length = k.length) (hb : b.length = k.length)
    (h : xor a k = xor b k) : a = b := by
  induction k generalizing a b with
  | nil => rw [eq_nil_of_length_eq_zero ha, eq_nil_of_length_eq_zero hb]
  | cons z k ih =>
    obtain ⟨c, a, rfl⟩ := exists_cons_of_length_eq_add_one ha
    obtain ⟨d, b, rfl⟩ := exists_cons_of_length_eq_add_one hb
    simp only [xor, zipWith_cons_cons, cons.injEq, UInt8.xor_left_inj] at h
    rw [h.1, ih (by simpa using ha) (by simpa using hb) h.2]

theorem length_hash (parts : List (List UInt8)) : (hash P parts).length = 20 := P.length_sha1 _

/-- The secret that the two sides share. -/
def secret (A : Initiator) (B : Receiver) : List UInt8 := sharedSecret A.x (publicKey B.x)

/-- The cipher of the initiator's direction, or of the receiver's one. -/
def cipherOf (P : Primitives) (A : Initiator) (B : Receiver) (initer : Bool) : Cipher :=
  newEncrypt P initer (secret A B) A.skey

/-- The method that the receiver chooses. -/
def chosen (A : Initiator) (B : Receiver) : UInt32 := B.chooseMethod A.cryptoProvides

/-- What both sides need for the handshake to succeed. -/
structure Compatible (P : Primitives) (A : Initiator) (B : Receiver) : Prop where
  ia_le : A.ia.length ≤ 65535
  skey_mem : A.skey ∈ B.skeys
  -- SHA-1 has no collision on the keys
  skey_eq : ∀ skey ∈ B.skeys, hash P [req2, skey] = hash P [req2, A.skey] → skey = A.skey
  supported : Supported (chosen A B)
  provided : chosen A B &&& A.cryptoProvides = chosen A B
  -- the patterns to synchronise on do not occur before
  sHash_first : FirstAtEnd (hash P [req1, secret A B]) (A.pad ++ hash P [req1, secret A B])
  vc_first : FirstAtEnd ((cipherOf P A B false).xorKeyStream vc)
    (B.pad ++ (cipherOf P A B false).xorKeyStream vc)

theorem skey_of_find {skey : List UInt8}
    (hskey : ∀ skey ∈ B.skeys, hash P [req2, skey] = hash P [req2, A.skey] → skey = A.skey)
    (hfind : B.skeys.find? (fun skey => xor (hash P [req2, skey]) (hash P [req3, s]) =
      xor (hash P [req2, A.skey]) (hash P [req3, s])) = some skey) : skey = A.skey := by
  have hxor : xor (hash P [req2, skey]) (hash P [req3, s]) =
      xor (hash P [req2, A.skey]) (hash P [req3, s]) := by
    simpa using find?_some hfind
  exact hskey skey (mem_of_find?_eq_some hfind)
    (eq_of_xor_eq (by rw [length_hash, length_hash]) (by rw [length_hash, length_hash]) hxor)

theorem find_skey (hmem : A.skey ∈ B.skeys)
    (hskey : ∀ skey ∈ B.skeys, hash P [req2, skey] = hash P [req2, A.skey] → skey = A.skey) :
    B.skeys.find? (fun skey => xor (hash P [req2, skey]) (hash P [req3, s]) =
      xor (hash P [req2, A.skey]) (hash P [req3, s])) = some A.skey := by
  cases hfind : B.skeys.find? (fun skey => xor (hash P [req2, skey]) (hash P [req3, s]) =
      xor (hash P [req2, A.skey]) (hash P [req3, s])) with
  | none => simpa using find?_eq_none.mp hfind A.skey hmem
  | some skey => rw [skey_of_find hskey hfind]

/-- The hash of the key, as the initiator sends it. -/
def skeyHash (P : Primitives) (A : Initiator) (B : Receiver) : List UInt8 :=
  xor (hash P [req2, A.skey]) (hash P [req3, secret A B])

theorem length_skeyHash : (skeyHash P A B).length = 20 := by
  simp [skeyHash, xor, length_hash]

/-- What the initiator sends and reads. -/
def initiatorScript (P : Primitives) (A : Initiator) (B : Receiver) : List Event :=
  .out (publicKey A.x) :: (inps (publicKey B.x) ++ (.out A.pad ::
    .out (hash P [req1, secret A B]) :: .out (skeyHash P A B) ::
      .out ((cipherOf P A B true).xorKeyStream A.header) ::
        inps (B.pad ++ (cipherOf P A B false).xorKeyStream (B.reply vc (chosen A B)))))

/-- What the receiver sends and reads. -/
def receiverScript (P : Primitives) (A : Initiator) (B : Receiver) : List Event :=
  .out (publicKey B.x) :: (inps (publicKey A.x) ++ (.out B.pad ::
    (inps (A.pad ++ hash P [req1, secret A B]) ++ (inps (skeyHash P A B) ++
      (inps ((cipherOf P A B true).xorKeyStream A.header) ++
        [.out ((cipherOf P A B false).xorKeyStream (B.reply vc (chosen A B)))])))))

/-- What the initiator returns. -/
def initiatorResult (P : Primitives) (A : Initiator) (B : Receiver) : HandshakeResult :=
  ⟨.ofMethod (chosen A B) []
    (some ((cipherOf P A B false).skip (B.reply vc (chosen A B)).length))
    (some ((cipherOf P A B true).skip A.header.length)), chosen A B, A.skey⟩

/-- What the receiver returns. -/
def receiverResult (P : Primitives) (A : Initiator) (B : Receiver) : HandshakeResult :=
  ⟨.ofMethod (chosen A B) A.ia (some ((cipherOf P A B true).skip A.header.length))
    (some ((cipherOf P A B false).skip (B.reply vc (chosen A B)).length)), chosen A B, A.skey⟩

theorem initiateHandshake_follows (h : Compatible P A B) :
    Follows (initiateHandshake P A) (initiatorScript P A B) (.ok (initiatorResult P A B)) :=
  follows_hsBind (establishS_follows (length_publicKey _))
    (follows_postWrite (initerSteps_follows h.ia_le h.supported h.provided h.vc_first))

theorem receiverSteps_follows (h : Compatible P A B) :
    Follows (receiverSteps P B (secret A B))
      (inps (A.pad ++ hash P [req1, secret A B]) ++ (inps (skeyHash P A B) ++
        (inps ((cipherOf P A B true).xorKeyStream A.header) ++
          [.out ((cipherOf P A B false).xorKeyStream (B.reply vc (chosen A B)))])))
      (.ok (receiverResult P A B)) := by
  have hpad := A.pad_le
  refine follows_orFail (readUntil_follows h.sHash_first ?_ ?_) ?_
  · exact ne_nil_of_length_pos (by rw [length_hash]; decide)
  · rw [length_append, length_hash]
    omega
  refine follows_orFail
    (@readFull_follows 20 conn (skeyHash P A B) (allows_of_limit rfl) length_skeyHash) ?_
  dsimp only [skeyHash]
  rw [find_skey h.skey_mem h.skey_eq]
  exact receiverHeader_follows h.ia_le h.supported

theorem receiveHandshake_follows (h : Compatible P A B) :
    Follows (receiveHandshake P B) (receiverScript P A B) (.ok (receiverResult P A B)) := by
  refine follows_hsBind (establishS_follows (length_publicKey _)) (follows_postWrite ?_)
  rw [sharedSecret_comm]
  exact receiverSteps_follows h

theorem joint_exchange {keyA padA hashS hashKey header keyB padB reply : List UInt8} :
    Joint
      (.out keyA :: (inps keyB ++ (.out padA :: .out hashS :: .out hashKey :: .out header ::
        inps (padB ++ reply))))
      (.out keyB :: (inps keyA ++ (.out padB :: (inps (padA ++ hashS) ++ (inps hashKey ++
        (inps header ++ [.out reply])))))) [] [] := by
  -- the public keys
  refine .outL (.outR ?_)
  rw [← append_nil ([] ++ keyA), ← append_nil ([] ++ keyB)]
  refine .inpsL (.inpsR ?_)
  -- all of the initiator's, and the receiver's pad
  refine .outL (.outL (.outL (.outL (.outR ?_))))
  have hsent : [] ++ padA ++ hashS ++ hashKey ++ header =
      (padA ++ hashS) ++ (hashKey ++ (header ++ [])) := by simp
  rw [hsent]
  refine .inpsR (.inpsR (.inpsR ?_))
  -- the reply
  refine .outR ?_
  have hreply := @Joint.inpsL [] [] [] [] (padB ++ reply) .done
  rwa [append_nil, append_nil] at hreply

theorem joint_scripts : Joint (initiatorScript P A B) (receiverScript P A B) [] [] :=
  joint_exchange

end Scripts

end ReliableBT.Mse
