import ReliableBT.Lib.IpText

/-!
# Hexadecimal and base32 texts

Bytes as texts, as `encoding/hex` and `encoding/base32` have them. A hexadecimal text has two digits
for a byte. A base32 text has eight digits for five bytes; the last group may be filled up with `=`
and then stands for fewer bytes. Line ends in a base32 text are ignored.

* `hexDecode_hexEncode`: a hexadecimal text is read back.
-/

namespace ReliableBT.Encodings

open Ip (isHex hexVal hexDigit hexDigit_spec)

/-! ## Hexadecimal texts -/

/-- `fmt.Sprintf("%x", bytes)` -/
def hexEncode (bytes : List UInt8) : List UInt8 :=
  bytes.flatMap fun b => [hexDigit (b.toNat / 16), hexDigit (b.toNat % 16)]

/-- `hex.Decode` -/
def hexDecode : List UInt8 → Option (List UInt8)
  | [] => some []
  | [_] => none
  | a :: b :: s =>
    if isHex a && isHex b then (hexDecode s).map (UInt8.ofNat (16 * hexVal a + hexVal b) :: ·)
    else none

theorem length_hexEncode (bytes : List UInt8) : (hexEncode bytes).length = 2 * bytes.length := by
  induction bytes with
  | nil => rfl
  | cons b bytes ih =>
    rw [hexEncode, List.flatMap_cons, ← hexEncode, List.length_append, ih, List.length_cons]
    exact (Nat.add_comm 2 _).trans (Nat.mul_succ 2 _).symm

theorem isHex_of_mem_hexEncode {bytes : List UInt8} {c : UInt8} (h : c ∈ hexEncode bytes) :
    isHex c := by
  obtain ⟨b, -, hc⟩ := List.mem_flatMap.mp h
  have hlt := b.toNat_lt
  simp only [List.mem_cons, List.not_mem_nil, or_false] at hc
  rcases hc with rfl | rfl
  · exact (hexDigit_spec (by omega)).1
  · exact (hexDigit_spec (by omega)).1

/-- **A hexadecimal text** is read back. -/
theorem hexDecode_hexEncode (bytes : List UInt8) : hexDecode (hexEncode bytes) = some bytes := by
  induction bytes with
  | nil => rfl
  | cons b bytes ih =>
    have hlt := b.toNat_lt
    obtain ⟨hhi, hhival⟩ := @hexDigit_spec (b.toNat / 16) (by omega)
    obtain ⟨hlo, hloval⟩ := @hexDigit_spec (b.toNat % 16) (by omega)
    have hb : UInt8.ofNat (16 * (b.toNat / 16) + b.toNat % 16) = b := by
      rw [Nat.div_add_mod, UInt8.ofNat_toNat]
    rw [hexEncode, List.flatMap_cons, ← hexEncode, List.cons_append, List.cons_append,
      List.nil_append, hexDecode, hhi, hlo, hhival, hloval, hb, ih]
    rfl

/-! ## Base32 texts -/

/-- The number that a digit of `ABCDEFGHIJKLMNOPQRSTUVWXYZ234567` stands for. -/
def base32Val (c : UInt8) : Option ℕ :=
  if 65 ≤ c.toNat ∧ c.toNat ≤ 90 then some (c.toNat - 65)
  else if 50 ≤ c.toNat ∧ c.toNat ≤ 55 then some (c.toNat - 24)
  else none

/-- The digits of a group, of which `k` are still to come: the numbers they stand for, whether `=`
has ended the text, and what is left of it. -/
def base32Group : ℕ → List ℕ → List UInt8 → Option (List ℕ × Bool × List UInt8)
  | 0, dbuf, src => some (dbuf, false, src)
  | _ + 1, _, [] => none
  | k + 1, dbuf, c :: src =>
    if c = 61 ∧ 2 ≤ dbuf.length ∧ src.length < 8 then
      if src.length + dbuf.length < 7 then none
      else if (src.take k).any (· ≠ 61) then none
      -- so many digits leave bits over that do not fill a byte
      else if dbuf.length ∈ [1, 3, 6] then none
      else some (dbuf, true, src)
    else
      match base32Val c with
      | none => none
      | some v => base32Group k (dbuf ++ [v]) src

/-- The bytes of a group: the first bits of its digits, in bytes. -/
def base32Bytes (dbuf : List ℕ) : List UInt8 :=
  let bits := 5 * dbuf.length
  let n := dbuf.foldl (fun n v => 32 * n + v) 0 / 2 ^ (bits % 8)
  (List.range (bits / 8)).map fun i => .ofNat (n / 256 ^ (bits / 8 - 1 - i))

/-- The loop of `decode`, for at most `n` groups -/
def base32Groups : ℕ → List UInt8 → Option (List UInt8)
  | 0, _ => some []
  | _ + 1, [] => some []
  | n + 1, src =>
    match base32Group 8 [] src with
    | none => none
    | some (dbuf, true, _) => some (base32Bytes dbuf)
    | some (dbuf, false, src) => (base32Groups n src).map (base32Bytes dbuf ++ ·)

/-- `base32.StdEncoding.Decode` -/
def base32Decode (src : List UInt8) : Option (List UInt8) :=
  base32Groups src.length (src.filter fun c => c ≠ 10 ∧ c ≠ 13)

-- `MZXW6YTBOI======` is `foobar`
example : base32Decode [77, 90, 88, 87, 54, 89, 84, 66, 79, 73, 61, 61, 61, 61, 61, 61] =
    some [102, 111, 111, 98, 97, 114] := by decide

end ReliableBT.Encodings
