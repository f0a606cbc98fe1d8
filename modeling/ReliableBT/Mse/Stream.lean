import ReliableBT.Lib.Bytes
import ReliableBT.Lib.Session

/-!
# Ciphers and readers of the encrypted handshake (`mse/mse.go`)

RC4 is a keystream that its key determines, and a cipher is a place in the keystream. A reader of
the handshake is the connection itself, with an `io.LimitReader` or a `cipherReader` around it, or
both. A read of it returns what the connection has, so the loops of `io.ReadFull`, `io.CopyN` and
`readUntil` are modelled with the reads they make.

* `code_append`, `code_code`: a keystream goes on where it stopped, and undoes itself.
* `readFull_follows`, `copyN_follows`: however their bytes arrive, the two get them all.
* `readUntil_follows`: `readUntil` stops right after the first occurrence of its pattern, and has
  not read a byte more, though it reads several bytes at a time.
* `fill_runs`, `readUntil_runs`: what the three did if the stream may have ended in between.
* `readUntil_first`: `readUntil` on any stream.
-/

open List Nat Prod

namespace ReliableBT.Mse

open ReliableBT.Bytes (IoError)
open ReliableBT.Session

/-! ## Keystreams -/

/-- `rc4.Cipher`: a keystream, and how much of it has been used -/
structure Cipher where
  keystream : ℕ → UInt8
  used : ℕ

/-- The cipher after `n` more bytes. -/
def Cipher.skip (c : Cipher) (n : ℕ) : Cipher := { c with used := c.used + n }

/-- `XORKeyStream` -/
def Cipher.xorKeyStream (c : Cipher) : List UInt8 → List UInt8
  | [] => []
  | b :: bs => (b ^^^ c.keystream c.used) :: (c.skip 1).xorKeyStream bs

/-- What a reader or writer makes of the bytes: with no cipher it leaves them as they are. -/
def code (c : Option Cipher) (bs : List UInt8) : List UInt8 :=
  c.elim bs (·.xorKeyStream bs)

/-- The cipher of a reader or writer after `n` more bytes. -/
def skip (c : Option Cipher) (n : ℕ) : Option Cipher := c.map (·.skip n)

theorem Cipher.skip_skip (c : Cipher) (m n : ℕ) : (c.skip m).skip n = c.skip (m + n) := by
  simp [skip, add_assoc]

@[simp] theorem Cipher.length_xorKeyStream (c : Cipher) (bs : List UInt8) :
    (c.xorKeyStream bs).length = bs.length := by
  induction bs generalizing c with
  | nil => rfl
  | cons b bs ih => simp [xorKeyStream, ih]

theorem Cipher.xorKeyStream_append (c : Cipher) (bs cs : List UInt8) :
    c.xorKeyStream (bs ++ cs) = c.xorKeyStream bs ++ (c.skip bs.length).xorKeyStream cs := by
  induction bs generalizing c with
  | nil => rfl
  | cons b bs ih =>
    simp only [cons_append, xorKeyStream, ih, skip_skip, length_cons, add_comm]

theorem Cipher.xorKeyStream_xorKeyStream (c : Cipher) (bs : List UInt8) :
    c.xorKeyStream (c.xorKeyStream bs) = bs := by
  induction bs generalizing c with
  | nil => rfl
  | cons b bs ih =>
    simp only [xorKeyStream, ih, UInt8.xor_assoc, UInt8.xor_self, UInt8.xor_zero]

variable {c : Option Cipher} {bs cs : List UInt8} {m n : ℕ}

@[simp] theorem length_code : (code c bs).length = bs.length := by
  cases c <;> simp [code]

@[simp] theorem code_nil : code c [] = [] := by
  cases c <;> rfl

@[simp] theorem code_code : code c (code c bs) = bs := by
  cases c with
  | none => rfl
  | some c => exact c.xorKeyStream_xorKeyStream bs

theorem code_append : code c (bs ++ cs) = code c bs ++ code (skip c bs.length) cs := by
  cases c with
  | none => rfl
  | some c => exact c.xorKeyStream_append bs cs

theorem take_code : (code c bs).take n = code c (bs.take n) := by
  rcases le_total n bs.length with h | h
  · have hsplit := @code_append c (bs.take n) (bs.drop n)
    rw [take_append_drop] at hsplit
    rw [hsplit, take_left' (by simpa using h)]
  · rw [take_of_length_le (by simpa using h), take_of_length_le h]

@[simp] theorem skip_skip : skip (skip c m) n = skip c (m + n) := by
  cases c with
  | none => rfl
  | some c => exact congrArg some (c.skip_skip m n)

@[simp] theorem skip_zero : skip c 0 = c := by
  cases c <;> rfl

/-! ## Readers -/

/-- A reader on the connection: how many bytes it may still give (`io.LimitReader`), and the cipher
that it decrypts with (`cipherReader`). -/
structure Source where
  limit : Option ℕ
  cipher : Option Cipher

/-- The reader after `n` more bytes. -/
def Source.skip (r : Source) (n : ℕ) : Source :=
  ⟨r.limit.map (· - n), Mse.skip r.cipher n⟩

/-- The reader may give `n` more bytes. -/
def Source.Allows (r : Source) (n : ℕ) : Prop := ∀ l, r.limit = some l → n ≤ l

/-- One read with a buffer of `n` bytes; the end of the stream is no bytes. -/
def Source.read (r : Source) (n : ℕ) : Proc (List UInt8 × Source) :=
  if r.limit.elim n (min n) = 0 then .ret ([], r)
  else .recv (r.limit.elim n (min n)) fun bs => .ret (code r.cipher bs, r.skip bs.length)

theorem Source.skip_skip (r : Source) (m n : ℕ) : (r.skip m).skip n = r.skip (m + n) := by
  cases r with
  | mk l c => cases l <;> simp [skip, sub_add_eq]

theorem Source.skip_zero (r : Source) : r.skip 0 = r := by
  cases r with
  | mk l c => cases l <;> simp [skip]

theorem Source.code_append (r : Source) :
    code r.cipher (bs ++ cs) = code r.cipher bs ++ code (r.skip bs.length).cipher cs :=
  Mse.code_append

variable {r r' : Source} {w rest b a : List UInt8} {i : ℕ} {u : List UInt8} {limit : ℕ}

theorem Source.allows_of_limit (h : r.limit = none) : r.Allows n :=
  fun _ hl => nomatch h.symm.trans hl

theorem Source.Allows.skip (h : r.Allows n) (m : ℕ) : (r.skip m).Allows (n - m) := by
  intro l hl
  obtain ⟨l', hl', rfl⟩ := Option.map_eq_some_iff.mp hl
  have := h l' hl'
  omega

theorem Source.Allows.mono (h : r.Allows n) (hm : m ≤ n) : r.Allows m :=
  fun l hl => hm.trans (h l hl)

theorem Source.read_of_allows (h : r.Allows n) (h0 : 0 < n) :
    r.read n = .recv n fun bs => .ret (code r.cipher bs, r.skip bs.length) := by
  have hn : r.limit.elim n (min n) = n := by
    cases hl : r.limit with
    | none => rfl
    | some l => exact min_eq_left (h l hl)
  rw [read, hn, if_neg (by omega)]

/-- What a read returned is the next part of the stream, and nothing only at the end of it or of
what the reader allows. -/
theorem Source.read_runs (h : Runs (r.read n) w (bs, r') rest) :
    ∃ u, u.length ≤ n ∧ w = u ++ rest ∧ bs = code r.cipher u ∧ r' = r.skip u.length ∧
      (u = [] → r.limit = none → n = 0 ∨ w = []) := by
  have hle : r.limit.elim n (min n) ≤ n := by
    cases r.limit with
    | none => exact le_refl n
    | some l => exact min_le_left n l
  unfold read at h
  split at h
  · rename_i h0
    obtain ⟨he, rfl⟩ := h
    obtain ⟨rfl, rfl⟩ := Prod.mk.inj he
    refine ⟨[], zero_le n, rfl, by simp, r.skip_zero.symm, fun _ hl => ?_⟩
    rw [hl] at h0
    exact .inl h0
  · obtain ⟨m, ⟨hm, hw, hm0⟩, he, rfl⟩ := h
    obtain ⟨rfl, rfl⟩ := Prod.mk.inj he
    have hlen : (w.take m).length = m := length_take_of_le hw
    refine ⟨w.take m, by omega, (take_append_drop m w).symm, rfl, rfl, fun h0 hl => ?_⟩
    rw [h0] at hlen
    rcases hm0 hlen.symm with h | h
    · rw [hl] at h
      exact .inl h
    · exact .inr h

/-! ## Reading a number of bytes -/

/-- Read until there are `n` more bytes, with a buffer of at most `cap` bytes; every round reads
something, so `n` rounds do. If the stream ends before that, the result is the bytes up to there. -/
def fill (cap : ℕ) : ℕ → List UInt8 → Source → ℕ →
    Proc (Except (List UInt8) (List UInt8) × Source)
  | 0, got, r, _ => .ret (.ok got, r)
  | fuel + 1, got, r, n =>
    if n = 0 then .ret (.ok got, r)
    else (r.read (min cap n)).bind fun (bs, r) =>
      if bs = [] then .ret (.error got, r) else fill cap fuel (got ++ bs) r (n - bs.length)

/-- `io.ReadFull`, with a buffer of `n` bytes -/
def readFull (r : Source) (n : ℕ) : Proc (Except IoError (List UInt8) × Source) :=
  (fill n n [] r n).bind fun (res, r) => .ret (match res with
    | .ok bs => .ok bs
    | .error got => .error (if got = [] then .eof else .unexpectedEof), r)

/-- `io.CopyN` to `ioutil.Discard`, which reads with a buffer of 8192 bytes -/
def copyN (r : Source) (n : ℕ) : Proc (Except IoError Unit × Source) :=
  (fill 8192 n [] r n).bind fun (res, r) => .ret (match res with
    | .ok _ => .ok ()
    | .error _ => .error .eof, r)

theorem fill_follows {cap fuel : ℕ} {got w : List UInt8} {r : Source} (hcap : n ≤ cap ∨ 0 < cap)
    (hfuel : n ≤ fuel) (hr : r.Allows n) (hw : w.length = n) :
    Follows (fill cap fuel got r n) (inps w) (.ok (got ++ code r.cipher w), r.skip n) := by
  induction fuel generalizing got w r n with
  | zero =>
    obtain rfl : n = 0 := by omega
    obtain rfl := eq_nil_of_length_eq_zero hw
    exact ⟨rfl, by simp [r.skip_zero]⟩
  | succ fuel ih =>
    unfold fill
    split
    · rename_i h0
      obtain rfl := eq_nil_of_length_eq_zero (hw.trans h0)
      exact ⟨rfl, by simp [h0, r.skip_zero]⟩
    · rw [Source.read_of_allows (hr.mono (min_le_right cap n)) (by omega), Proc.bind,
        ← append_nil (inps w)]
      refine Follows.recv (by omega) (by omega) fun m h0 hm => ?_
      have hlen : (w.take m).length = m := length_take_of_le (by omega)
      have hne : code r.cipher (w.take m) ≠ [] := by
        intro he
        have := congrArg length he
        rw [length_code, hlen] at this
        exact absurd this (by simp; omega)
      have hih := @ih (n - m) (got ++ code r.cipher (w.take m)) (w.drop m) (r.skip m) (by omega)
        (by omega) (hr.skip m) (by rw [length_drop]; omega)
      have hcode : code r.cipher w =
          code r.cipher (w.take m) ++ code (r.skip m).cipher (w.drop m) := by
        rw [← congrArg (code r.cipher) (take_append_drop m w), code_append, hlen]
        rfl
      rw [append_assoc, ← hcode, Source.skip_skip, Nat.add_sub_cancel' (by omega)] at hih
      dsimp only [Proc.bind]
      rw [if_neg hne, length_code, hlen, append_nil]
      exact hih

theorem fill_runs {cap fuel : ℕ} {got w rest : List UInt8} {r r' : Source}
    {res : Except (List UInt8) (List UInt8)} (hcap : n ≤ cap ∨ 0 < cap) (hfuel : n ≤ fuel)
    (h : Runs (fill cap fuel got r n) w (res, r') rest) :
    (∃ u, u.length = n ∧ w = u ++ rest ∧ res = .ok (got ++ code r.cipher u) ∧ r' = r.skip n) ∨
      ∃ bs, res = .error bs ∧ (r.limit = none → w.length < n ∧ rest = []) := by
  induction fuel generalizing got w r n with
  | zero =>
    obtain rfl : n = 0 := by omega
    obtain ⟨he, rfl⟩ := h
    obtain ⟨rfl, rfl⟩ := mk.inj he
    exact .inl ⟨[], rfl, rfl, by simp, r.skip_zero.symm⟩
  | succ fuel ih =>
    unfold fill at h
    split at h
    · subst n
      obtain ⟨he, rfl⟩ := h
      obtain ⟨rfl, rfl⟩ := mk.inj he
      exact .inl ⟨[], rfl, rfl, by simp, r.skip_zero.symm⟩
    · obtain ⟨⟨bs, r₁⟩, mid, hread, h⟩ := runs_bind.mp h
      obtain ⟨u, hu, rfl, rfl, rfl, hend⟩ := Source.read_runs hread
      dsimp only at h
      split at h
      · rename_i he
        obtain rfl : u = [] := by
          have := congrArg length he
          rw [length_code] at this
          exact eq_nil_of_length_eq_zero this
        obtain ⟨he, rfl⟩ := h
        obtain ⟨rfl, rfl⟩ := mk.inj he
        refine .inr ⟨got, rfl, fun hl => ?_⟩
        rcases hend rfl hl with h0 | h0
        · omega
        · exact ⟨by rw [h0]; simp; omega, by simpa using h0⟩
      · rename_i hne
        have hpos : 0 < u.length := by
          rcases u with - | ⟨b, u⟩
          · exact absurd code_nil hne
          · simp
        rw [length_code] at h
        rcases @ih (n - u.length) _ _ _ (by omega) (by omega) h with
          ⟨v, hv, rfl, rfl, rfl⟩ | ⟨bs, rfl, hshort⟩
        · refine .inl ⟨u ++ v, by rw [length_append]; omega, by simp, ?_, ?_⟩
          · rw [code_append, append_assoc]
            rfl
          · rw [Source.skip_skip, Nat.add_sub_cancel' (by omega)]
        · refine .inr ⟨bs, rfl, fun hl => ?_⟩
          obtain ⟨hlt, rfl⟩ := hshort (by simp [Source.skip, hl])
          exact ⟨by rw [length_append]; omega, rfl⟩

theorem readFull_follows {r : Source} {d : List UInt8} (hr : r.Allows n) (hd : d.length = n) :
    Follows (readFull r n) (inps (code r.cipher d)) (.ok d, r.skip n) := by
  have hfill := @fill_follows n n n [] (code r.cipher d) r (.inl le_rfl) le_rfl hr (by simpa)
  rw [code_code, nil_append] at hfill
  rw [← append_nil (inps _)]
  exact hfill.bind ⟨rfl, rfl⟩

theorem copyN_follows {d : List UInt8} (hr : r.Allows n) (hd : d.length = n) :
    Follows (copyN r n) (inps (code r.cipher d)) (.ok (), r.skip n) := by
  rw [← append_nil (inps _)]
  exact (fill_follows (.inr (by decide)) le_rfl hr (by simpa)).bind ⟨rfl, rfl⟩

theorem readFull_runs {res : Except IoError (List UInt8)}
    (h : Runs (readFull r n) w (res, r') rest) :
    (∃ u, u.length = n ∧ w = u ++ rest ∧ res = .ok (code r.cipher u) ∧ r' = r.skip n) ∨
      ∃ e, res = .error e ∧ (r.limit = none → w.length < n ∧ rest = []) := by
  obtain ⟨⟨res', r₁⟩, mid, hfill, he, rfl⟩ := runs_bind.mp h
  obtain ⟨rfl, rfl⟩ := mk.inj he
  rcases fill_runs (.inl le_rfl) le_rfl hfill with ⟨u, hu, rfl, rfl, rfl⟩ | ⟨bs, rfl, hshort⟩
  · exact .inl ⟨u, hu, rfl, rfl, rfl⟩
  · exact .inr ⟨_, rfl, hshort⟩

theorem copyN_runs {res : Except IoError Unit} (h : Runs (copyN r n) w (res, r') rest) :
    (∃ u, u.length = n ∧ w = u ++ rest ∧ res = .ok () ∧ r' = r.skip n) ∨ ∃ e, res = .error e := by
  obtain ⟨⟨res', r₁⟩, mid, hfill, he, rfl⟩ := runs_bind.mp h
  obtain ⟨rfl, rfl⟩ := mk.inj he
  rcases fill_runs (.inr (by decide)) le_rfl hfill with ⟨u, hu, rfl, rfl, rfl⟩ | ⟨bs, rfl, -⟩
  · exact .inl ⟨u, hu, rfl, rfl, rfl⟩
  · exact .inr ⟨_, rfl⟩

/-! ## Reading up to a pattern -/

/-- The loop of `suffixMatchLen`: `i` is how much of `b` to try to match -/
def suffixMatchFrom (a b : List UInt8) : ℕ → ℕ
  | 0 => 0
  | i + 1 =>
    if b.take (i + 1) = a.drop (a.length - (i + 1)) then i + 1 else suffixMatchFrom a b i

/-- `suffixMatchLen`: looking for `b` at the end of `a` -/
def suffixMatchLen (a b : List UInt8) : ℕ :=
  let b := if a.length < b.length then b.take a.length else b
  suffixMatchFrom a b b.length

/-- The loop of `readUntil`, where `kept` is the start of the pattern that was seen last. Each round
reads a byte at least, and the reader has a limit. -/
def readUntilLoop (b : List UInt8) : ℕ → List UInt8 → Source → Proc (Except IoError Unit × Source)
  | 0, _, r => .ret (.error .eof, r)
  | fuel + 1, kept, r =>
    (readFull r (b.length - kept.length)).bind fun (res, r) =>
      match res with
      | .error e => .ret (.error e, r)
      | .ok bs =>
        let b1 := kept ++ bs
        let i := suffixMatchLen b1 b
        if i = b.length then .ret (.ok (), r)
        else readUntilLoop b fuel (b1.drop (b1.length - i)) r

/-- `readUntil(io.LimitReader(conn, limit), b)` -/
def readUntil (limit : ℕ) (b : List UInt8) : Proc (Except IoError Unit × Source) :=
  readUntilLoop b (limit + 1) [] ⟨some limit, none⟩

/-- The longest start of `b` at the end of `u` has `i` bytes. -/
structure LongestMatch (b u : List UInt8) (i : ℕ) : Prop where
  le : i ≤ b.length
  suffix : b.take i <:+ u
  max : ∀ j ≤ b.length, b.take j <:+ u → j ≤ i

/-- `b` is at the end of `w`, and nowhere before. -/
def FirstAtEnd (b w : List UInt8) : Prop :=
  b <:+ w ∧ ∀ u, u <+: w → b <:+ u → u = w

theorem firstAtEnd_iff : FirstAtEnd b w ↔ b <:+ w ∧ ∀ u ∈ w.inits, b <:+ u → u = w := by
  simp only [FirstAtEnd, mem_inits]

instance (b w : List UInt8) : Decidable (FirstAtEnd b w) := decidable_of_iff _ firstAtEnd_iff.symm

theorem exists_firstAtEnd (h : b <:+: w) : ∃ u v, w = u ++ v ∧ FirstAtEnd b u := by
  induction w using reverseRecOn with
  | nil =>
    exact ⟨[], [], rfl, infix_nil.mp h ▸ nil_suffix, fun u hu _ => prefix_nil.mp hu⟩
  | append_singleton w c ih =>
    by_cases hw : b <:+: w
    · obtain ⟨u, v, rfl, hu⟩ := ih hw
      exact ⟨u, v ++ [c], by simp, hu⟩
    · rcases infix_concat_iff.mp h with h | h
      · refine ⟨w ++ [c], [], by simp, h, fun u hu hb => ?_⟩
        rcases prefix_concat_iff.mp hu with rfl | hu
        · rfl
        · exact absurd (hb.isInfix.trans hu.isInfix) hw
      · exact absurd h hw

theorem take_suffix_iff (hi : i ≤ b.length) :
    b.take i <:+ a ↔ b.take i = a.drop (a.length - i) := by
  rw [suffix_iff_eq_drop, length_take_of_le hi]

theorem suffixMatchFrom_spec {a b : List UInt8} {i : ℕ} (hi : i ≤ b.length) :
    suffixMatchFrom a b i ≤ i ∧ b.take (suffixMatchFrom a b i) <:+ a ∧
      ∀ j ≤ i, b.take j <:+ a → j ≤ suffixMatchFrom a b i := by
  induction i with
  | zero => exact ⟨le_rfl, by simp [suffixMatchFrom], fun j hj _ => hj⟩
  | succ i ih =>
    obtain ⟨hle, hsuffix, hmax⟩ := ih (by omega)
    unfold suffixMatchFrom
    split
    · rename_i h
      exact ⟨le_rfl, (take_suffix_iff hi).mpr h, fun j hj _ => hj⟩
    · rename_i h
      refine ⟨by omega, hsuffix, fun j hj hs => ?_⟩
      rcases lt_or_eq_of_le hj with hlt | rfl
      · exact hmax j (by omega) hs
      · exact absurd ((take_suffix_iff hi).mp hs) h

theorem suffixMatchLen_longest (h : a.length = b.length) :
    LongestMatch b a (suffixMatchLen a b) := by
  obtain ⟨hle, hsuffix, hmax⟩ := @suffixMatchFrom_spec a b b.length le_rfl
  have heq : suffixMatchLen a b = suffixMatchFrom a b b.length := by
    rw [suffixMatchLen, if_neg (by omega)]
  rw [heq]
  exact ⟨hle, hsuffix, hmax⟩

theorem LongestMatch.of_suffix (h : LongestMatch b a i) (ha : a.length = b.length) (hau : a <:+ u) :
    LongestMatch b u i where
  le := h.le
  suffix := h.suffix.trans hau
  max j hj hs := h.max j hj (suffix_of_suffix_length_le hs hau (by
    rw [length_take_of_le hj]
    omega))

/-- A round does not read beyond the pattern: the part that is still missing would otherwise be
shorter. -/
theorem LongestMatch.missing_le {v : List UInt8} (h : LongestMatch b u i) (hend : b <:+ u ++ v) :
    b.length - i ≤ v.length := by
  by_contra hlt
  have hv : v <:+ b := suffix_of_suffix_length_le (suffix_append u v) hend (by omega)
  obtain ⟨t, rfl⟩ := hv
  obtain ⟨s, hs⟩ := hend
  rw [← append_assoc, append_left_inj] at hs
  have htake : (t ++ v).take t.length = t := take_left
  have hle := h.max t.length (by simp) (htake.symm ▸ ⟨s, hs⟩)
  rw [length_append] at hlt
  omega

theorem suffixMatchLen_kept {x : List UInt8} (hi : i ≤ b.length) (hx : x.length = b.length - i) :
    LongestMatch b (b.take i ++ x) (suffixMatchLen (b.take i ++ x) b) ∧
      (b.take i ++ x).drop ((b.take i ++ x).length - suffixMatchLen (b.take i ++ x) b) =
        b.take (suffixMatchLen (b.take i ++ x) b) := by
  have hlen : (b.take i ++ x).length = b.length := by
    rw [length_append, length_take_of_le hi]
    omega
  have hlong := suffixMatchLen_longest hlen
  exact ⟨hlong, ((take_suffix_iff hlong.le).mp hlong.suffix).symm⟩

theorem readUntilLoop_follows {b u v : List UInt8} {fuel i : ℕ} {limit : Option ℕ}
    (hfirst : FirstAtEnd b (u ++ v)) (hmatch : LongestMatch b u i) (hi : i < b.length)
    (hfuel : v.length < fuel) (hlimit : Source.Allows ⟨limit, none⟩ v.length) :
    Follows (readUntilLoop b fuel (b.take i) ⟨limit, none⟩) (inps v)
      (.ok (), Source.skip ⟨limit, none⟩ v.length) := by
  induction fuel generalizing u v i limit with
  | zero => omega
  | succ fuel ih =>
    obtain ⟨x, v, rfl, hx⟩ : ∃ x v', v = x ++ v' ∧ x.length = b.length - i :=
      ⟨_, _, (take_append_drop (b.length - i) v).symm,
        length_take_of_le (hmatch.missing_le hfirst.1)⟩
    rw [length_append] at hfuel hlimit
    have hread := readFull_follows (hlimit.mono (le_add_right _ _)) (Eq.refl x.length)
    obtain ⟨hlast, hkept⟩ := suffixMatchLen_kept hi.le hx
    have hsuffix : b.take i ++ x <:+ u ++ x := by
      obtain ⟨t, ht⟩ := hmatch.suffix
      exact ⟨t, by rw [← append_assoc, ht]⟩
    have hlong := hlast.of_suffix (by rw [length_append, length_take_of_le hi.le]; omega) hsuffix
    rw [readUntilLoop, length_take_of_le hi.le, ← hx, inps_append, length_append,
      ← Source.skip_skip]
    refine hread.bind ?_
    dsimp only
    rw [hkept]
    split
    · rename_i hfound
      have hall : u ++ x = u ++ (x ++ v) :=
        hfirst.2 _ ⟨v, by simp⟩ (by simpa [hfound] using hlong.suffix)
      obtain rfl : v = [] := by simpa using hall
      exact ⟨rfl, by rw [length_nil, Source.skip_zero]⟩
    · rename_i hfound
      have hrest := hlimit.skip x.length
      rw [Nat.add_sub_cancel_left] at hrest
      exact ih (by rwa [append_assoc]) hlong (lt_of_le_of_ne hlong.le hfound)
        (by omega) hrest

theorem longestMatch_nil : LongestMatch b [] 0 where
  le := zero_le _
  suffix := nil_suffix
  max j hj hs := by
    have := congrArg length (suffix_nil.mp hs)
    rw [length_take_of_le hj] at this
    exact this.le

theorem readUntil_follows (hfirst : FirstAtEnd b w) (hb : b ≠ []) (hlimit : w.length ≤ limit) :
    Follows (readUntil limit b) (inps w) (.ok (), ⟨some (limit - w.length), none⟩) :=
  @readUntilLoop_follows b [] w (limit + 1) 0 (some limit) hfirst longestMatch_nil
    (length_pos_of_ne_nil hb) (by omega) (fun l hl => by cases hl; exact hlimit)

/-- If it ends without an error then the pattern was there, and with one only if the reader had no
more bytes: every round reads a part of the pattern that is not empty. -/
theorem readUntilLoop_runs {b w rest : List UInt8} {fuel i : ℕ} {limit : Option ℕ} {r' : Source}
    {res : Except IoError Unit} (hi : i ≤ b.length)
    (h : Runs (readUntilLoop b fuel (b.take i) ⟨limit, none⟩) w (res, r') rest) :
    (res = .ok () ∧ ∃ u, w = u ++ rest ∧ b <:+ b.take i ++ u) ∨
      ∃ e, res = .error e ∧ (limit = none → i < b.length → w.length < fuel → rest = []) := by
  induction fuel generalizing w i limit with
  | zero =>
    obtain ⟨he, rfl⟩ := h
    exact .inr ⟨_, (mk.inj he).1.symm, fun _ _ hlt => by omega⟩
  | succ fuel ih =>
    rw [readUntilLoop, length_take_of_le hi] at h
    obtain ⟨⟨res, r⟩, mid, hread, h⟩ := runs_bind.mp h
    rcases readFull_runs hread with ⟨x, hx, rfl, rfl, rfl⟩ | ⟨e, rfl, hend⟩
    · obtain ⟨hlast, hkept⟩ := suffixMatchLen_kept hi hx
      dsimp only [code, Option.elim] at h
      rw [hkept] at h
      split at h
      · rename_i hfound
        obtain ⟨he, rfl⟩ := h
        exact .inl ⟨(mk.inj he).1.symm, x, rfl, by simpa [hfound] using hlast.suffix⟩
      · rename_i hfound
        rcases ih hlast.le h with ⟨hok, v, rfl, hv⟩ | ⟨e, he, hend⟩
        · refine .inl ⟨hok, x ++ v, by simp, hv.trans ?_⟩
          obtain ⟨t, ht⟩ := hlast.suffix
          exact ⟨t, by rw [← append_assoc, ht, append_assoc]⟩
        · refine .inr ⟨e, he, fun hl hlt hfuel => ?_⟩
          rw [length_append] at hfuel
          exact hend (by rw [hl]; rfl) (lt_of_le_of_ne hlast.le hfound) (by omega)
    · obtain ⟨he, rfl⟩ := h
      exact .inr ⟨e, (mk.inj he).1.symm, fun hl _ _ => (hend hl).2⟩

theorem readUntil_runs (h : Runs (readUntil limit b) w (.ok (), r') rest) :
    ∃ u, w = u ++ rest ∧ b <:+ u := by
  rcases readUntilLoop_runs (i := 0) (zero_le _) h with ⟨-, hu⟩ | ⟨e, he, -⟩
  · exact hu
  · cases he

/-- `readUntil` on any stream, however the stream is cut into reads: if the pattern is in it then it
reads up to the end of the first one and no further, and otherwise all of it, with an error. -/
theorem readUntil_first (b w : List UInt8) (hb : b ≠ []) {fuel : ℕ} (hfuel : w.length < fuel)
    {res : Except IoError Unit × Source} {rest : List UInt8}
    (h : Runs (readUntilLoop b fuel [] ⟨none, none⟩) w res rest) :
    (b <:+: w → ∃ u, w = u ++ rest ∧ FirstAtEnd b u ∧ res.1 = .ok ()) ∧
      (¬ b <:+: w → (∃ e, res.1 = .error e) ∧ rest = []) := by
  have hpos := length_pos_of_ne_nil hb
  refine ⟨fun hin => ?_, fun habsent => ?_⟩
  · obtain ⟨u, v, rfl, hfirst⟩ := exists_firstAtEnd hin
    have hfollows := @readUntilLoop_follows b [] u fuel 0 none hfirst longestMatch_nil hpos
      (by rw [length_append] at hfuel; omega) (Source.allows_of_limit rfl)
    rw [show u = reads (inps u) by simpa [reads] using (reads_inps_append u []).symm] at h
    obtain ⟨rfl, rfl⟩ := hfollows.runs_eq h
    exact ⟨u, rfl, hfirst, rfl⟩
  · rcases readUntilLoop_runs (i := 0) hpos.le h with ⟨-, u, rfl, hu⟩ | ⟨e, he, hend⟩
    · exact absurd (hu.isInfix.trans (prefix_append u rest).isInfix) habsent
    · exact ⟨⟨e, he⟩, hend rfl hpos hfuel⟩

theorem readUntil_first_overlap :
    ∃ res rest, Runs (readUntilLoop [1, 1, 2] 6 [] ⟨none, none⟩) [1, 1, 1, 2, 9] res rest ∧
      ∃ u, [1, 1, 1, 2, 9] = u ++ rest ∧ FirstAtEnd [1, 1, 2] u ∧ res.1 = .ok () := by
  obtain ⟨res, rest, h⟩ := exists_runs (readUntilLoop [1, 1, 2] 6 [] ⟨none, none⟩) [1, 1, 1, 2, 9]
  exact ⟨res, rest, h, (readUntil_first _ _ (by decide) (by decide) h).1 ⟨[1], [9], rfl⟩⟩

end ReliableBT.Mse
