import ReliableBT.Mse.Agreement

/-!
# Truncation of the encrypted handshake (`mse/mse.go`)

The stream from an honest initiator to the receiver is cut off at some point. Most reads of the
receiver then fail, and so does its handshake. But it ignores the errors of two reads: that of the
length of the initial payload, and that of the payload itself, whose buffer is then all zeros.

* `receiveHandshake_cut`: how the receiver ends, for every cut and however the bytes arrive.
* `truncation_iff`: it delivers something else than a beginning of what the initiator sent iff the
  cut is after the length of the payload and before its end, and the payload is not all zeros.
-/

open List

namespace ReliableBT.Mse

open ReliableBT.Bytes (IoError putBE getBE length_putBE)
open ReliableBT.Session

/-! ## Steps on a stream that was cut off -/

section Rules

variable {α β : Type} {k n : ℕ} {c w rest : List UInt8} {r r' : Source} {res : Except Error β}

theorem take_append_cases (k : ℕ) (c w : List UInt8) :
    (k < c.length ∧ (c ++ w).take k = c.take k) ∨
      (c.length ≤ k ∧ (c ++ w).take k = c ++ w.take (k - c.length)) := by
  rcases Nat.lt_or_ge k c.length with h | h
  · exact .inl ⟨h, take_append_of_le_length h.le⟩
  · refine .inr ⟨h, ?_⟩
    rw [take_append, take_of_length_le h]

variable {g : IoError → Error} {d : List UInt8} {f : Unit × Source → Hs β}

theorem runs_orFail {p : Proc (Except IoError α × Source)} {f : α × Source → Hs β}
    (h : Runs (orFail g p >>= f : Hs β) w res rest) :
    ∃ a mid, Runs p w a mid ∧ ((∃ e, a.1 = .error e) → ∃ e, res = .error e) ∧
      ∀ b, a.1 = .ok b → Runs (f (b, a.2)) mid res rest := by
  obtain ⟨b, mid, hp, hf⟩ := runs_bind.mp h
  obtain ⟨⟨a, r'⟩, mid', hread, hb⟩ := runs_bind.mp hp
  obtain ⟨rfl, rfl⟩ := hb
  refine ⟨(a, r'), mid', hread, ?_, ?_⟩
  · rintro ⟨e, rfl⟩
    exact ⟨g e, hf.1.symm⟩
  · rintro b rfl
    exact hf

theorem readFull_cut {a : Except IoError (List UInt8)} (hd : d.length = n) (hr : r.limit = none)
    (h : Runs (readFull r n) ((code r.cipher d ++ w).take k) (a, r') rest) :
    (k < n ∧ (∃ e, a = .error e) ∧ rest = []) ∨
      (n ≤ k ∧ a = .ok d ∧ r' = r.skip n ∧ rest = w.take (k - n)) := by
  have hlen : (code r.cipher d).length = n := by rw [length_code, hd]
  rcases take_append_cases k (code r.cipher d) w with ⟨hk, hw⟩ | ⟨hk, hw⟩
  · rw [hw] at h
    rcases readFull_runs h with ⟨u, hu, hcut, -, -⟩ | ⟨e, rfl, hshort⟩
    · have := congrArg length hcut
      rw [length_take, length_append, hu] at this
      omega
    · exact .inl ⟨hlen ▸ hk, ⟨e, rfl⟩, (hshort hr).2⟩
  · rw [hw] at h
    rcases readFull_runs h with ⟨u, hu, hcut, rfl, rfl⟩ | ⟨e, rfl, hshort⟩
    · obtain ⟨rfl, rfl⟩ := append_inj hcut (hlen.trans hu.symm)
      rw [code_code, hlen]
      exact .inr ⟨hlen ▸ hk, rfl, rfl, rfl⟩
    · have := (hshort hr).1
      rw [length_append] at this
      omega

theorem unmarshal_cut {g : IoError → Error} {d : List UInt8} {f : List UInt8 × Source → Hs β}
    (hd : d.length = n) (hr : r.limit = none)
    (h : Runs (orFail g (readFull r n) >>= f : Hs β) ((code r.cipher d ++ w).take k) res rest) :
    (k < n ∧ ∃ e, res = .error e) ∨ (n ≤ k ∧ Runs (f (d, r.skip n)) (w.take (k - n)) res rest) := by
  obtain ⟨⟨a, r'⟩, mid, hread, herror, hok⟩ := runs_orFail h
  rcases readFull_cut hd hr hread with ⟨hk, ha, -⟩ | ⟨hk, rfl, rfl, rfl⟩
  · exact .inl ⟨hk, herror ha⟩
  · exact .inr ⟨hk, hok d rfl⟩

theorem readConn_cut {f : List UInt8 × Source → Hs β} (hd : d.length = n)
    (h : Runs (orFail g (readFull conn n) >>= f : Hs β) ((d ++ w).take k) res rest) :
    (k < n ∧ ∃ e, res = .error e) ∨ (n ≤ k ∧ Runs (f (d, conn.skip n)) (w.take (k - n)) res rest) :=
  unmarshal_cut (r := conn) hd rfl h

theorem copyN_cut (hd : d.length = n) (hr : r.limit = none)
    (h : Runs (orFail g (copyN r n) >>= f : Hs β) ((code r.cipher d ++ w).take k) res rest) :
    (k < n ∧ ∃ e, res = .error e) ∨
      (n ≤ k ∧ Runs (f ((), r.skip n)) (w.take (k - n)) res rest) := by
  obtain ⟨⟨a, r'⟩, mid, hread, herror, hok⟩ := runs_orFail h
  have hlen : (code r.cipher d).length = n := by rw [length_code, hd]
  rcases take_append_cases k (code r.cipher d) w with ⟨hk, hw⟩ | ⟨hk, hw⟩
  · refine .inl ⟨hlen ▸ hk, herror ?_⟩
    rcases copyN_runs hread with ⟨u, hu, hcut, -, -⟩ | ha
    · have := congrArg length hcut
      rw [hw, length_take, length_append, hu] at this
      omega
    · exact ha
  · rw [hw] at hread
    have hfollows := copyN_follows (Source.allows_of_limit hr) hd
    rw [← append_nil (inps _)] at hfollows
    obtain ⟨he, rfl⟩ := hfollows.runs_eq (by rwa [reads_inps_append, append_assoc])
    obtain ⟨rfl, rfl⟩ := Prod.mk.inj he
    rw [hlen] at hok
    exact .inr ⟨hlen ▸ hk, hok () rfl⟩

theorem readUntil_cut {b c : List UInt8} {limit : ℕ} (hfirst : FirstAtEnd b c) (hb : b ≠ [])
    (hlimit : c.length ≤ limit)
    (h : Runs (orFail g (readUntil limit b) >>= f : Hs β) ((c ++ w).take k) res rest) :
    (k < c.length ∧ ∃ e, res = .error e) ∨
      (c.length ≤ k ∧ ∃ r', Runs (f ((), r')) (w.take (k - c.length)) res rest) := by
  obtain ⟨⟨a, r'⟩, mid, hread, herror, hok⟩ := runs_orFail h
  rcases take_append_cases k c w with ⟨hk, hw⟩ | ⟨hk, hw⟩
  · refine .inl ⟨hk, herror ?_⟩
    cases a with
    | error e => exact ⟨e, rfl⟩
    | ok a =>
      -- the pattern would have to be in the part of `c` that is there
      rw [hw] at hread
      obtain ⟨u, hu, hbu⟩ := readUntil_runs hread
      have hprefix : u <+: c := (hu ▸ prefix_append u mid).trans (List.take_prefix k c)
      have := congrArg length hu
      rw [hfirst.2 u hprefix hbu, length_append, length_take] at this
      omega
  · rw [hw] at hread
    have hfollows := readUntil_follows hfirst hb hlimit
    rw [← append_nil (inps _)] at hfollows
    obtain ⟨he, rfl⟩ := hfollows.runs_eq (by rwa [reads_inps_append, append_assoc])
    obtain ⟨rfl, rfl⟩ := Prod.mk.inj he
    exact .inr ⟨hk, _, hok () rfl⟩

end Rules

/-! ## The receiver on a stream that was cut off -/

section Receiver

variable {P : Primitives} {A : Initiator} {B : Receiver} {j k : ℕ} {r r' : Source}
  {ia held later s rest : List UInt8}

variable {w : List UInt8} {res : Except Error HandshakeResult} {m : UInt32} {writer : Option Cipher}

theorem establishS_cut {x : ℕ} {y : List UInt8} {res : Except Error (List UInt8)}
    (hy : y.length = 96) (h : Runs (establishS x) ((y ++ w).take k) res rest) :
    (k < 96 ∧ ∃ e, res = .error e) ∨
      (96 ≤ k ∧ res = .ok (sharedSecret x y) ∧ rest = w.take (k - 96)) := by
  rcases readConn_cut hy h with he | ⟨hk, rfl, rfl⟩
  · exact .inl he
  · exact .inr ⟨hk, rfl, rfl⟩

/-- What the receiver has of the payload, and of the bytes `later` after it, if `j` bytes are there
from the length of the payload on; `c` is the cipher after the payload. -/
def PayloadAt (c : Option Cipher) (ia later : List UInt8) (j : ℕ) (held : List UInt8)
    (c' : Option Cipher) (rest : List UInt8) : Prop :=
  (j < 2 ∧ held = [] ∧ rest = []) ∨
    (2 ≤ j ∧ j < 2 + ia.length ∧ held = replicate ia.length 0 ∧ rest = []) ∨
      (2 + ia.length ≤ j ∧ held = ia ∧ c' = c ∧ rest = later.take (j - (2 + ia.length)))

theorem receiverIA_cut {res : Except Error (List UInt8 × Source)} (hr : r.limit = none)
    (h : Runs (receiverIA r ia.length) ((code r.cipher ia ++ later).take j) res rest) :
    ∃ held r', res = .ok (held, r') ∧
      ((j < ia.length ∧ held = replicate ia.length 0 ∧ rest = []) ∨
        (ia.length ≤ j ∧ held = ia ∧ r' = r.skip ia.length ∧
          rest = later.take (j - ia.length))) := by
  unfold receiverIA at h
  split at h
  · obtain ⟨a, mid, hp, hf⟩ := runs_bind.mp h
    obtain ⟨⟨a, r'⟩, mid', hread, rfl, rfl⟩ := runs_bind.mp hp
    obtain ⟨rfl, rfl⟩ := hf
    rcases readFull_cut rfl hr hread with ⟨hj, ⟨e, rfl⟩, rfl⟩ | ⟨hj, rfl, rfl, rfl⟩
    · exact ⟨_, _, rfl, .inl ⟨hj, rfl, rfl⟩⟩
    · exact ⟨_, _, rfl, .inr ⟨hj, rfl, rfl, rfl⟩⟩
  · rename_i h0
    obtain rfl : ia = [] := by simpa using h0
    obtain ⟨rfl, rfl⟩ := h
    exact ⟨_, _, rfl, .inr ⟨Nat.zero_le j, rfl, r.skip_zero.symm, by simp⟩⟩

theorem receiverPayload_cut {res : Except Error (List UInt8 × Source)} (hr : r.limit = none)
    (hia : ia.length ≤ 65535)
    (h : Runs (receiverPayload r)
      ((code r.cipher (putBE 2 ia.length) ++ (code (r.skip 2).cipher ia ++ later)).take j)
      res rest) :
    ∃ held r', res = .ok (held, r') ∧
      PayloadAt ((r.skip 2).skip ia.length).cipher ia later j held r'.cipher rest := by
  obtain ⟨a, mid, hp, hf⟩ := runs_bind.mp h
  obtain ⟨⟨a, r₁⟩, mid', hread, rfl, rfl⟩ := runs_bind.mp hp
  rcases readFull_cut (length_putBE 2 _) hr hread with ⟨hj, ⟨e, rfl⟩, rfl⟩ | ⟨hj, rfl, rfl, rfl⟩
  · obtain ⟨rfl, rfl⟩ := hf
    exact ⟨[], r₁, rfl, .inl ⟨hj, rfl, rfl⟩⟩
  · change Runs (receiverIA (r.skip 2) (getBE (putBE 2 ia.length))) _ _ _ at hf
    rw [Bytes.getBE_putBE_of_lt (by omega)] at hf
    obtain ⟨held, r', rfl, hcase⟩ := receiverIA_cut (by simp [Source.skip, hr]) hf
    refine ⟨held, r', rfl, .inr ?_⟩
    rcases hcase with ⟨hlt, hheld, hrest⟩ | ⟨hle, hheld, hr', hrest⟩
    · exact .inl ⟨hj, by omega, hheld, hrest⟩
    · rw [Nat.sub_sub] at hrest
      exact .inr ⟨by omega, hheld, by rw [hr'], hrest⟩

theorem receiverReply_runs {skey vc : List UInt8}
    (h : Runs (receiverReply P B s skey vc m held r) w res rest) :
    rest = w ∧ ((¬ Supported m ∧ ∃ e, res = .error e) ∨ (Supported m ∧
      ∃ writer, res = .ok ⟨.ofMethod m held r.cipher writer, m, skey⟩)) := by
  change Runs (if m = cryptoMethodRC4 then pure ⟨⟨held, r.cipher, _⟩, m, skey⟩
    else if m = cryptoMethodPlaintext then pure ⟨⟨held, none, none⟩, m, skey⟩
    else fail .notSupported : Hs HandshakeResult) _ _ _ at h
  unfold Supported ReadWriter.ofMethod
  split at h
  · rename_i hm
    obtain ⟨rfl, rfl⟩ := h
    exact ⟨rfl, .inr ⟨.inr hm, _, by rw [if_pos hm]⟩⟩
  · rename_i hm
    split at h
    · rename_i hm'
      obtain ⟨rfl, rfl⟩ := h
      exact ⟨rfl, .inr ⟨.inl hm', none, by rw [if_neg hm]⟩⟩
    · rename_i hm'
      obtain ⟨rfl, rfl⟩ := h
      exact ⟨rfl, .inl ⟨fun hs => hs.elim hm' hm, _, rfl⟩⟩

theorem receiverHeader_cut (hia : A.ia.length ≤ 65535) (h : Runs (receiverHeader P B s A.skey)
      (((newEncrypt P true s A.skey).xorKeyStream A.header ++ later).take k) res rest) :
    ((k < 14 + A.padLen ∨ ¬ Supported (chosen A B)) ∧ ∃ e, res = .error e) ∨
      (14 + A.padLen ≤ k ∧ Supported (chosen A B) ∧ ∃ held c' writer,
        res = .ok ⟨.ofMethod (chosen A B) held c' writer, chosen A B, A.skey⟩ ∧
          PayloadAt (some ((newEncrypt P true s A.skey).skip A.header.length)) A.ia later
            (k - (14 + A.padLen)) held c' rest) := by
  have hheader : (newEncrypt P true s A.skey).xorKeyStream A.header = _ :=
    Initiator.code_header ⟨none, some (newEncrypt P true s A.skey)⟩
  rw [hheader] at h
  simp only [append_assoc] at h
  rcases unmarshal_cut length_vc rfl h with ⟨hk, he⟩ | ⟨hk₁, h⟩
  · exact .inl ⟨.inl (by omega), he⟩
  rcases unmarshal_cut (length_putBE 4 _) rfl h with ⟨hk, he⟩ | ⟨hk₂, h⟩
  · exact .inl ⟨.inl (by omega), he⟩
  rcases unmarshal_cut (length_putBE 2 _) rfl h with ⟨hk, he⟩ | ⟨hk₃, h⟩
  · exact .inl ⟨.inl (by omega), he⟩
  have hpadLen := A.padLen_le
  dsimp only at h
  rw [Bytes.getBE_putBE_of_lt (by omega), Bytes.getBE_putBE_of_lt A.cryptoProvides.toNat_lt,
    UInt32.ofNat_toNat] at h
  rcases copyN_cut (length_replicate ..) rfl h with ⟨hk, he⟩ | ⟨hk₄, h⟩
  · exact .inl ⟨.inl (by omega), he⟩
  obtain ⟨a, mid, hpayload, h⟩ := runs_bind.mp h
  obtain ⟨held, r', rfl, hat⟩ := receiverPayload_cut rfl hia hpayload
  obtain ⟨rfl, hreply⟩ := receiverReply_runs h
  rcases hreply with ⟨hm, he⟩ | ⟨hm, writer, rfl⟩
  · exact .inl ⟨.inr hm, he⟩
  refine .inr ⟨by omega, hm, held, r'.cipher, writer, rfl, ?_⟩
  have hj : k - 8 - 4 - 2 - A.padLen = k - (14 + A.padLen) := by omega
  simp only [Source.skip_skip] at hat
  rw [Initiator.length_header, ← hj]
  exact hat

theorem receiverSteps_cut
    (hskey : ∀ skey ∈ B.skeys, hash P [req2, skey] = hash P [req2, A.skey] → skey = A.skey)
    (hsync : FirstAtEnd (hash P [req1, secret A B]) (A.pad ++ hash P [req1, secret A B]))
    (h : Runs (receiverSteps P B (secret A B))
      (((A.pad ++ hash P [req1, secret A B]) ++ (skeyHash P A B ++ w)).take k) res rest) :
    ((k < A.pad.length + 20 + 20 ∨ A.skey ∉ B.skeys) ∧ ∃ e, res = .error e) ∨
      (A.pad.length + 20 + 20 ≤ k ∧ A.skey ∈ B.skeys ∧
        Runs (receiverHeader P B (secret A B) A.skey)
          (w.take (k - (A.pad.length + 20 + 20))) res rest) := by
  have hpad := A.pad_le
  have hlen : (A.pad ++ hash P [req1, secret A B]).length = A.pad.length + 20 := by
    rw [length_append, length_hash]
  have hne : hash P [req1, secret A B] ≠ [] :=
    ne_nil_of_length_pos (by rw [length_hash]; decide)
  rcases readUntil_cut hsync hne (by omega) h with ⟨hk, he⟩ | ⟨hk₁, r', h⟩
  · exact .inl ⟨.inl (by omega), he⟩
  rw [hlen] at hk₁ h
  rcases readConn_cut length_skeyHash h with ⟨hk, he⟩ | ⟨hk₂, h⟩
  · exact .inl ⟨.inl (by omega), he⟩
  dsimp only [skeyHash] at h
  by_cases hmem : A.skey ∈ B.skeys
  · rw [find_skey hmem hskey, Nat.sub_sub] at h
    exact .inr ⟨by omega, hmem, h⟩
  · refine .inl ⟨.inr hmem, ?_⟩
    split at h
    · exact ⟨_, h.1.symm⟩
    · rename_i skey hfind
      obtain rfl := skey_of_find hskey hfind
      exact absurd (mem_of_find?_eq_some hfind) hmem

/-- What an honest initiator sends, where `later` is what its user writes: if the payload is too
large, it returns before the header. -/
def initiatorStream (P : Primitives) (A : Initiator) (B : Receiver) (later : List UInt8) :
    List UInt8 :=
  if A.ia.length ≤ 65535 then
    sends (initiatorScript P A B) ++ code (initiatorResult P A B).rw.writer later
  else publicKey A.x ++ (A.pad ++ (hash P [req1, secret A B] ++ skeyHash P A B))

/-- Where the initial payload begins in the stream of the initiator; its length is right before. -/
def payloadStart (A : Initiator) : ℕ := 96 + (A.pad.length + 20) + 20 + (14 + A.padLen) + 2

theorem initiatorStream_eq : initiatorStream P A B later =
    publicKey A.x ++ ((A.pad ++ hash P [req1, secret A B]) ++ (skeyHash P A B ++
      if A.ia.length ≤ 65535 then (cipherOf P A B true).xorKeyStream A.header ++
        code (initiatorResult P A B).rw.writer later else [])) := by
  unfold initiatorStream
  split
  · simp only [initiatorScript, sends, sends_inps_append, sends_inps, append_assoc, append_nil]
  · simp

/-- The initiator sends its header, and the receiver goes on when it has got it. -/
def Proceeds (A : Initiator) (B : Receiver) : Prop :=
  A.ia.length ≤ 65535 ∧ A.skey ∈ B.skeys ∧ Supported (chosen A B)

theorem receiveHandshake_cut
    (hskey : ∀ skey ∈ B.skeys, hash P [req2, skey] = hash P [req2, A.skey] → skey = A.skey)
    (hsync : FirstAtEnd (hash P [req1, secret A B]) (A.pad ++ hash P [req1, secret A B]))
    (h : Runs (receiveHandshake P B) ((initiatorStream P A B later).take k) res rest) :
    ((k + 2 < payloadStart A ∨ ¬ Proceeds A B) ∧ ∃ e, res = .error e) ∨
      (payloadStart A ≤ k + 2 ∧ Proceeds A B ∧ ∃ held c' writer,
        res = .ok ⟨.ofMethod (chosen A B) held c' writer, chosen A B, A.skey⟩ ∧
          PayloadAt (some ((cipherOf P A B true).skip A.header.length)) A.ia
            (code (initiatorResult P A B).rw.writer later) (k + 2 - payloadStart A) held c'
            rest) := by
  rw [initiatorStream_eq] at h
  unfold payloadStart
  obtain ⟨a, mid, hs, h⟩ := runs_bind.mp h
  rcases establishS_cut (length_publicKey _) hs with ⟨hk, e, rfl⟩ | ⟨hk₁, rfl, rfl⟩
  · exact .inl ⟨.inl (by omega), e, h.1.symm⟩
  change Runs (receiverSteps P B (sharedSecret B.x (publicKey A.x))) _ _ _ at h
  rw [← sharedSecret_comm] at h
  rcases receiverSteps_cut hskey hsync h with ⟨hk | hmem, he⟩ | ⟨hk₂, hmem, h⟩
  · exact .inl ⟨.inl (by omega), he⟩
  · exact .inl ⟨.inr fun hp => hmem hp.2.1, he⟩
  by_cases hia : A.ia.length ≤ 65535
  · rw [if_pos hia] at h
    rcases receiverHeader_cut hia h with ⟨hk | hm, he⟩ | ⟨hk₃, hm, held, c', writer, rfl, hat⟩
    · exact .inl ⟨.inl (by omega), he⟩
    · exact .inl ⟨.inr fun hp => hm hp.2.2, he⟩
    · refine .inr ⟨by omega, ⟨hia, hmem, hm⟩, held, c', writer, rfl, ?_⟩
      have hj : k + 2 - (96 + (A.pad.length + 20) + 20 + (14 + A.padLen) + 2) =
          k - 96 - (A.pad.length + 20 + 20) - (14 + A.padLen) := by omega
      rw [hj]
      exact hat
  · rw [if_neg hia, take_nil] at h
    refine .inl ⟨.inr fun hp => hia hp.1, ?_⟩
    rcases @unmarshal_cut _ 0 8 [] _ _ _ _ vc _ length_vc rfl h with ⟨-, he⟩ | ⟨hk, -⟩
    · exact he
    · omega

/-! ## What the receiver delivers -/

/-- However the first `k` bytes of the stream arrive, if the handshake of the receiver succeeds then
the bytes of its reader are the beginning of the payload and what the initiator's user wrote. -/
def DeliversPrefix (P : Primitives) (A : Initiator) (B : Receiver) (later : List UInt8) (k : ℕ) :
    Prop :=
  ∀ res rest, Runs (receiveHandshake P B) ((initiatorStream P A B later).take k) (.ok res) rest →
    res.rw.pending rest <+: A.ia ++ later

theorem pending_nil {c : Option Cipher} :
    (ReadWriter.ofMethod m held c writer).pending [] = held := by
  unfold ReadWriter.ofMethod
  split <;> simp [ReadWriter.pending]

theorem pending_later :
    (ReadWriter.ofMethod (chosen A B) A.ia (some ((cipherOf P A B true).skip A.header.length))
      writer).pending ((code (initiatorResult P A B).rw.writer later).take j) =
      A.ia ++ later.take j := by
  unfold initiatorResult ReadWriter.ofMethod
  rw [take_code]
  split <;> simp [ReadWriter.pending]

/-- If no other key has the hash of the initiator's one, and the receiver synchronises where it
should, then the receiver may deliver what the initiator did not send iff the stream is cut between
the length of the payload and its end, unless the payload is all zeros anyway. -/
theorem truncation_iff
    (hskey : ∀ skey ∈ B.skeys, hash P [req2, skey] = hash P [req2, A.skey] → skey = A.skey)
    (hsync : FirstAtEnd (hash P [req1, secret A B]) (A.pad ++ hash P [req1, secret A B])) :
    DeliversPrefix P A B later k ↔
      ¬ (payloadStart A ≤ k ∧ k < payloadStart A + A.ia.length ∧
        A.ia ≠ replicate A.ia.length 0 ∧ Proceeds A B) := by
  constructor
  · rintro h ⟨hstart, hend, hia, hproceeds⟩
    obtain ⟨res, rest, hruns⟩ :=
      exists_runs (receiveHandshake P B) ((initiatorStream P A B later).take k)
    rcases receiveHandshake_cut hskey hsync hruns with
      ⟨hk | hk, -⟩ | ⟨-, -, held, c', writer, rfl, hat⟩
    · omega
    · exact hk hproceeds
    · rcases hat with ⟨hj, -⟩ | ⟨-, -, rfl, rfl⟩ | ⟨hj, -⟩
      · omega
      · have hprefix := h _ _ hruns
        rw [pending_nil] at hprefix
        exact hia (prefix_of_prefix_length_le hprefix (prefix_append _ _) (by simp)
          |>.eq_of_length (by simp)).symm
      · omega
  · intro h res rest hruns
    rcases receiveHandshake_cut hskey hsync hruns with
      ⟨-, e, he⟩ | ⟨hstart, hproceeds, held, c', writer, he, hat⟩
    · cases he
    · obtain rfl := Except.ok.inj he
      rcases hat with ⟨-, rfl, rfl⟩ | ⟨hj, hj', rfl, rfl⟩ | ⟨-, rfl, rfl, rfl⟩
      · rw [pending_nil]
        exact List.nil_prefix
      · rw [pending_nil]
        have hia : A.ia = replicate A.ia.length 0 := by
          by_contra hne
          exact h ⟨by omega, by omega, hne, hproceeds⟩
        exact hia ▸ prefix_append _ _
      · rw [pending_later]
        exact prefix_append_right_inj _ |>.mpr (List.take_prefix _ _)

end Receiver

/-- When all of the payload is there, the receiver delivers it. -/
theorem truncation_after_payload :
    DeliversPrefix samplePrimitives sampleInitiator sampleReceiver [1] 158 :=
  (truncation_iff sample_compatible.skey_eq sample_compatible.sHash_first).mpr
    fun h => absurd h.2.1 (by decide)

/-- The payload is 7, 8, 9, and the stream is cut after the 7: the handshake of the receiver
succeeds, and its reader delivers three zeros. -/
theorem truncation_in_payload :
    ∃ res rest, Runs (receiveHandshake samplePrimitives sampleReceiver)
        ((initiatorStream samplePrimitives sampleInitiator sampleReceiver [1]).take 156)
        (.ok res) rest ∧
      res.rw.pending rest = [0, 0, 0] ∧ ¬ [0, 0, 0] <+: sampleInitiator.ia ++ [1] := by
  obtain ⟨res, rest, hruns⟩ := exists_runs (receiveHandshake samplePrimitives sampleReceiver)
    ((initiatorStream samplePrimitives sampleInitiator sampleReceiver [1]).take 156)
  have hproceeds : Proceeds sampleInitiator sampleReceiver := ⟨by decide, by decide, by decide⟩
  rcases receiveHandshake_cut sample_compatible.skey_eq sample_compatible.sHash_first hruns with
    ⟨hk | hk, -⟩ | ⟨-, -, held, c', writer, rfl, hat⟩
  · exact absurd hk (by decide)
  · exact absurd hproceeds hk
  · refine ⟨_, rest, hruns, ?_, by decide⟩
    rcases hat with ⟨hj, -⟩ | ⟨-, -, rfl, rfl⟩ | ⟨hj, -⟩
    · exact absurd hj (by decide)
    · exact pending_nil
    · exact absurd hj (by decide)

end ReliableBT.Mse
