import Mathlib

/-!
# Byte strings: big-endian numerals and a finite reader

`putBE w n` is the `w`-byte big-endian form of `n` (the numeral is cut to `w` bytes, as a
conversion to a `w`-byte integer type does) and `getBE` reads one back. A reader is the list of
the bytes it has not delivered yet. `readFull n` is the read that wants exactly `n` bytes: it
either delivers them or drains the reader and fails, with `eof` when nothing at all was left and
`unexpectedEof` when the bytes ran out half way. A read of no bytes never fails.

* `getBE_putBE`, `putBE_getBE`: the two directions of the codec.
* `readFull_append`: a read of `bs.length` bytes from `bs ++ rest` delivers `bs` and leaves
  `rest`.
-/

open List Nat UInt8

namespace ReliableBT.Bytes

/-! ## Big-endian numerals -/

/-- The `w` bytes of `n`, most significant first. -/
def putBE : Nat → Nat → List UInt8
  | 0, _ => []
  | w + 1, n => putBE w (n / 256) ++ [ofNat n]

/-- The number a big-endian byte string stands for. -/
def getBE (bs : List UInt8) : Nat :=
  bs.foldl (fun n b => n * 256 + b.toNat) 0

@[simp] theorem length_putBE (w n : Nat) : (putBE w n).length = w := by
  induction w generalizing n with
  | zero => rfl
  | succ w ih => simp [putBE, ih]

@[simp] theorem getBE_nil : getBE [] = 0 := rfl

theorem getBE_snoc (bs : List UInt8) (b : UInt8) :
    getBE (bs ++ [b]) = getBE bs * 256 + b.toNat := by
  simp [getBE]

theorem getBE_putBE (w n : Nat) : getBE (putBE w n) = n % 256 ^ w := by
  induction w generalizing n with
  | zero => simp [putBE, mod_one]
  | succ w ih =>
    have hmod : n % 256 ^ (w + 1) = n % 256 + 256 * (n / 256 % 256 ^ w) := by
      rw [pow_succ, mul_comm, mod_mul]
    rw [putBE, getBE_snoc, ih, toNat_ofNat', hmod]
    omega

theorem getBE_putBE_of_lt {w n : Nat} (h : n < 256 ^ w) : getBE (putBE w n) = n := by
  rw [getBE_putBE, mod_eq_of_lt h]

theorem getBE_lt (bs : List UInt8) : getBE bs < 256 ^ bs.length := by
  induction bs using reverseRecOn with
  | nil => simp
  | append_singleton bs b ih =>
    rw [getBE_snoc, length_append, length_singleton, pow_succ]
    have hb := b.toNat_lt
    omega

theorem putBE_getBE (bs : List UInt8) : putBE bs.length (getBE bs) = bs := by
  induction bs using reverseRecOn with
  | nil => rfl
  | append_singleton bs b ih =>
    have hb := b.toNat_lt
    rw [length_append, length_singleton, putBE, getBE_snoc]
    have hdiv : (getBE bs * 256 + b.toNat) / 256 = getBE bs := by omega
    have hmod : UInt8.ofNat (getBE bs * 256 + b.toNat) = b := by
      apply UInt8.toNat_inj.mp
      rw [UInt8.toNat_ofNat']
      omega
    rw [hdiv, ih, hmod]

theorem putBE_eq_iff {w n m : Nat} : putBE w n = putBE w m ↔ n % 256 ^ w = m % 256 ^ w := by
  rw [← getBE_putBE, ← getBE_putBE]
  constructor
  · exact congrArg getBE
  · intro h
    have hback : ∀ k, putBE w (getBE (putBE w k)) = putBE w k := by
      intro k
      have hk := putBE_getBE (putBE w k)
      rwa [length_putBE] at hk
    rw [← hback n, h, hback m]

/-! ## Reading exactly `n` bytes -/

/-- How a read that wants a fixed number of bytes fails. -/
inductive IoError where
  | eof
  | unexpectedEof
  deriving Repr, DecidableEq

/-- The read of exactly `n` bytes, with what the reader has left after it. -/
def readFull (n : Nat) (s : List UInt8) : Except IoError (List UInt8) × List UInt8 :=
  if n ≤ s.length then (.ok (s.take n), s.drop n)
  else if s.isEmpty then (.error .eof, [])
  else (.error .unexpectedEof, [])

/-- The read of one byte. -/
def readByte : List UInt8 → Except IoError UInt8 × List UInt8
  | [] => (.error .eof, [])
  | b :: s => (.ok b, s)

theorem readFull_of_le {n : Nat} {s : List UInt8} (h : n ≤ s.length) :
    readFull n s = (.ok (s.take n), s.drop n) := by
  rw [readFull, if_pos h]

theorem readFull_append (bs rest : List UInt8) :
    readFull bs.length (bs ++ rest) = (.ok bs, rest) := by
  rw [readFull_of_le (by simp)]
  simp

theorem readFull_of_lt {n : Nat} {s : List UInt8} (h : s.length < n) :
    ∃ e, readFull n s = (.error e, []) := by
  unfold readFull
  rw [if_neg (by omega)]
  split
  · exact ⟨_, rfl⟩
  · exact ⟨_, rfl⟩

theorem readFull_cases (n : Nat) (s : List UInt8) :
    (s.length < n ∧ ∃ e, readFull n s = (.error e, [])) ∨
      ∃ bs rest, bs.length = n ∧ s = bs ++ rest ∧ readFull n s = (.ok bs, rest) := by
  by_cases h : s.length < n
  · exact .inl ⟨h, readFull_of_lt h⟩
  · have hn : n ≤ s.length := Nat.le_of_not_lt h
    exact .inr ⟨s.take n, s.drop n, by simpa using hn, (take_append_drop n s).symm,
      readFull_of_le hn⟩

end ReliableBT.Bytes
