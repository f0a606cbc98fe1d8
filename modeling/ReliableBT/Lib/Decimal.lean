import Mathlib

/-!
# Decimal numerals over bytes

The decimal text of a number, and the readers `strconv.ParseUint`, `strconv.ParseInt` (base 10,
64 bits) and `big.Int.SetString` of a byte string. A reader stops with `range` at the first digit
that takes the number out of the 64 bits, so it can answer `range` for a text whose tail is not a
number at all.

## Main results

- `parseInt_formatInt`, `parseUint_formatNat`, `bigSetString_formatInt`: what each reader makes of
  the text of a number
- `formatNat_value`: digits without a leading zero are the text of their value
- `parseInt_ok`, `bigSetString_some`: a text that is read is a sign and digits
-/

open List Nat

namespace ReliableBT.Decimal

/-- The byte of a decimal digit. -/
def digit (k : ℕ) : UInt8 := UInt8.ofNat (48 + k)

/-- `'0' <= b && b <= '9'` -/
def isDigit (b : UInt8) : Bool := decide (48 ≤ b.toNat ∧ b.toNat ≤ 57)

/-- The number a digit byte stands for. -/
def digitVal (b : UInt8) : ℕ := b.toNat - 48

/-- The number a string of digits stands for. -/
def value (s : List UInt8) : ℕ := s.foldl (fun n b => 10 * n + digitVal b) 0

/-- `strconv.AppendUint(nil, n, 10)` -/
def formatNat (n : ℕ) : List UInt8 :=
  if n = 0 then [48] else ((Nat.digits 10 n).map digit).reverse

/-- `strconv.AppendInt(nil, n, 10)` and `big.Int.String` -/
def formatInt (n : ℤ) : List UInt8 :=
  if n < 0 then 45 :: formatNat n.natAbs else formatNat n.natAbs

/-- Why a text is not a number: `strconv.ErrSyntax`, `strconv.ErrRange`. -/
inductive NumError
  | invalid
  | range
deriving DecidableEq, Repr

/-- The digit loop of `ParseUint`, at the number read so far. -/
def parseDigits : ℕ → List UInt8 → Except NumError ℕ
  | n, [] => .ok n
  | n, b :: s =>
    if isDigit b then
      if 2 ^ 64 ≤ 10 * n + digitVal b then .error .range
      else parseDigits (10 * n + digitVal b) s
    else .error .invalid

/-- `strconv.ParseUint(s, 10, 64)` -/
def parseUint (s : List UInt8) : Except NumError ℕ :=
  if s = [] then .error .invalid else parseDigits 0 s

/-- The sign and the rest of a numeral: `-` is negative, `+` is dropped. -/
def splitSign : List UInt8 → Bool × List UInt8
  | [] => (false, [])
  | b :: s => if b = 43 then (false, s) else if b = 45 then (true, s) else (false, b :: s)

/-- `strconv.ParseInt(s, 10, 64)` -/
def parseInt (s : List UInt8) : Except NumError ℤ :=
  let (neg, u) := splitSign s
  match parseUint u with
  | .error e => .error e
  | .ok un =>
    if neg then if 2 ^ 63 < un then .error .range else .ok (-un)
    else if 2 ^ 63 ≤ un then .error .range else .ok un

/-- `new(big.Int).SetString(s, 10)` -/
def bigSetString (s : List UInt8) : Option ℤ :=
  let (neg, u) := splitSign s
  if u ≠ [] ∧ u.all isDigit then some (if neg then -(value u : ℤ) else value u) else none

/-! ## Digits -/

variable {k : ℕ} {b : UInt8} {n : ℕ} {s : List UInt8}

theorem toNat_digit (h : k < 10) : (digit k).toNat = 48 + k := by
  have : (48 + k) % 256 = 48 + k := mod_eq_of_lt (by omega)
  simpa [digit] using this

theorem isDigit_digit (h : k < 10) : isDigit (digit k) := by
  simp only [isDigit, toNat_digit h, decide_eq_true_eq]
  omega

theorem digitVal_digit (h : k < 10) : digitVal (digit k) = k := by
  rw [digitVal, toNat_digit h]
  omega

theorem digitVal_lt (h : isDigit b) : digitVal b < 10 := by
  simp only [isDigit, decide_eq_true_eq] at h
  rw [digitVal]
  omega

theorem digit_digitVal (h : isDigit b) : digit (digitVal b) = b := by
  simp only [isDigit, decide_eq_true_eq] at h
  apply UInt8.toNat_inj.mp
  rw [toNat_digit (by rw [digitVal]; omega), digitVal]
  omega

/-! ## The value of a string of digits -/

theorem value_append (s u : List UInt8) :
    value (s ++ u) = u.foldl (fun n b => 10 * n + digitVal b) (value s) := by
  rw [value, value, foldl_append]

theorem value_reverse (s : List UInt8) : value s.reverse = ofDigits 10 (s.map digitVal) := by
  induction s with
  | nil => rfl
  | cons b s ih =>
    rw [reverse_cons, value_append, ih, map_cons, ofDigits_cons]
    simp only [foldl_cons, foldl_nil]
    rw [add_comm]

theorem value_formatNat (n : ℕ) : value (formatNat n) = n := by
  rw [formatNat]
  split
  · next h => rw [h]; rfl
  · rw [value_reverse, map_map]
    have h : (digits 10 n).map (digitVal ∘ digit) = digits 10 n := by
      conv_rhs => rw [← map_id (digits 10 n)]
      apply map_congr_left
      intro k hk
      exact digitVal_digit (digits_lt_base (by omega) hk)
    rw [h, ofDigits_digits]

theorem all_formatNat (n : ℕ) : (formatNat n).all isDigit := by
  rw [formatNat]
  split
  · rfl
  · rw [all_reverse, all_map, all_eq_true]
    intro k hk
    exact isDigit_digit (digits_lt_base (by omega) hk)

theorem formatNat_ne_nil (n : ℕ) : formatNat n ≠ [] := by
  rw [formatNat]
  split
  · simp
  · next h => simpa using digits_ne_nil_iff_ne_zero.mpr h

/-- **Leading digit.** A positive number's text does not start with a zero. -/
theorem head_formatNat (h : n ≠ 0) : ∃ b s, formatNat n = b :: s ∧ 49 ≤ b.toNat ∧ b.toNat ≤ 57 := by
  have hne : digits 10 n ≠ [] := digits_ne_nil_iff_ne_zero.mpr h
  have hlast := getLast_digit_ne_zero 10 h
  have hlt : (digits 10 n).getLast hne < 10 :=
    digits_lt_base (by omega) (getLast_mem hne)
  refine ⟨digit ((digits 10 n).getLast hne), ((digits 10 n).dropLast.map digit).reverse, ?_, ?_⟩
  · rw [formatNat, if_neg h]
    conv_lhs => rw [← dropLast_append_getLast hne]
    simp
  · rw [toNat_digit hlt]
    omega

/-- **Canonical digits.** A string of digits that starts with no zero is the text of its value. -/
theorem formatNat_value (hb : 49 ≤ b.toNat ∧ b.toNat ≤ 57) (hs : s.all isDigit) :
    formatNat (value (b :: s)) = b :: s := by
  have hdb : isDigit b := by simp only [isDigit, decide_eq_true_eq]; omega
  have hall : ∀ c ∈ (b :: s).reverse, isDigit c := by
    intro c hc
    rcases mem_cons.mp (mem_reverse.mp hc) with rfl | hc
    · exact hdb
    · exact all_eq_true.mp hs c hc
  have hv : value (b :: s) = ofDigits 10 ((b :: s).reverse.map digitVal) := by
    rw [← value_reverse, reverse_reverse]
  have hdig : digits 10 (value (b :: s)) = (b :: s).reverse.map digitVal := by
    rw [hv]
    apply digits_ofDigits 10 (by omega)
    · intro k hk
      obtain ⟨c, hc, rfl⟩ := mem_map.mp hk
      exact digitVal_lt (hall c hc)
    · intro hne
      simp only [reverse_cons, map_append, map_cons, map_nil, getLast_append_singleton, digitVal]
      omega
  have hne : value (b :: s) ≠ 0 := by
    intro h0
    rw [h0, digits_zero] at hdig
    simp at hdig
  rw [formatNat, if_neg hne, hdig, map_map]
  have hid : (b :: s).reverse.map (digit ∘ digitVal) = (b :: s).reverse := by
    conv_rhs => rw [← map_id (b :: s).reverse]
    exact map_congr_left fun c hc => digit_digitVal (hall c hc)
  rw [hid, reverse_reverse]

theorem le_foldl_value (s : List UInt8) (n : ℕ) :
    n ≤ s.foldl (fun n b => 10 * n + digitVal b) n := by
  induction s generalizing n with
  | nil => exact le_refl n
  | cons b s ih => exact le_trans (by omega) (ih (10 * n + digitVal b))

/-! ## Readers -/

/-- **Digit loop.** On digits the loop returns their value, or `range` when 64 bits do not hold
it. -/
theorem parseDigits_eq (hs : s.all isDigit) (n : ℕ) (hn : n < 2 ^ 64) :
    parseDigits n s =
      if s.foldl (fun n b => 10 * n + digitVal b) n < 2 ^ 64
      then .ok (s.foldl (fun n b => 10 * n + digitVal b) n) else .error .range := by
  induction s generalizing n with
  | nil => rw [parseDigits, foldl_nil, if_pos hn]
  | cons b s ih =>
    obtain ⟨hb, hs⟩ : isDigit b ∧ s.all isDigit := by simpa using hs
    rw [parseDigits, if_pos hb, foldl_cons]
    by_cases h : 2 ^ 64 ≤ 10 * n + digitVal b
    · have hle := le_foldl_value s (10 * n + digitVal b)
      rw [if_pos h, if_neg (by omega)]
    · rw [if_neg h, ih hs _ (by omega)]

theorem parseDigits_ok {m : ℕ} (h : parseDigits n s = .ok m) :
    s.all isDigit ∧ m = s.foldl (fun n b => 10 * n + digitVal b) n := by
  induction s generalizing n with
  | nil =>
    simp only [parseDigits, Except.ok.injEq] at h
    exact ⟨rfl, h.symm⟩
  | cons b s ih =>
    rw [parseDigits] at h
    by_cases hb : isDigit b
    · rw [if_pos hb] at h
      by_cases hr : 2 ^ 64 ≤ 10 * n + digitVal b
      · rw [if_pos hr] at h
        cases h
      · rw [if_neg hr] at h
        obtain ⟨hs, hm⟩ := ih h
        exact ⟨by simp [hb, hs], hm⟩
    · simp [hb] at h

theorem parseUint_ok (h : parseUint s = .ok n) : s ≠ [] ∧ s.all isDigit ∧ n = value s := by
  rw [parseUint] at h
  by_cases hs : s = []
  · simp [hs] at h
  · rw [if_neg hs] at h
    exact ⟨hs, parseDigits_ok h⟩

theorem parseUint_formatNat (n : ℕ) :
    parseUint (formatNat n) = if n < 2 ^ 64 then .ok n else .error .range := by
  have h := parseDigits_eq (all_formatNat n) 0 (by norm_num)
  rw [← value, value_formatNat] at h
  rw [parseUint, if_neg (formatNat_ne_nil n), h]

theorem splitSign_of_digits (hs : s.all isDigit) : splitSign s = (false, s) := by
  cases s with
  | nil => rfl
  | cons b s =>
    rw [all_cons, Bool.and_eq_true] at hs
    have hne : ∀ c : UInt8, ¬ isDigit c → b ≠ c := fun c hc h => hc (h ▸ hs.1)
    rw [splitSign, if_neg (hne 43 (by decide)), if_neg (hne 45 (by decide))]

theorem splitSign_formatNat (n : ℕ) : splitSign (formatNat n) = (false, formatNat n) :=
  splitSign_of_digits (all_formatNat n)

theorem splitSign_formatInt (n : ℤ) :
    splitSign (formatInt n) = (decide (n < 0), formatNat n.natAbs) := by
  rw [formatInt]
  by_cases h : n < 0
  · rw [if_pos h, decide_eq_true h]
    rfl
  · rw [if_neg h, decide_eq_false h, splitSign_formatNat]

/-- **`ParseInt` of a number's text**: the number, when an `int64` holds it. -/
theorem parseInt_formatInt (n : ℤ) :
    parseInt (formatInt n) = if -2 ^ 63 ≤ n ∧ n < 2 ^ 63 then .ok n else .error .range := by
  simp only [parseInt, splitSign_formatInt, parseUint_formatNat, decide_eq_true_eq]
  by_cases hr : n.natAbs < 2 ^ 64
  · rw [if_pos hr]
    by_cases hneg : n < 0
    · simp only [if_pos hneg]
      by_cases h : 2 ^ 63 < n.natAbs
      · rw [if_pos h, if_neg (by omega)]
      · rw [if_neg h, if_pos (by omega)]
        congr 1
        omega
    · simp only [if_neg hneg]
      by_cases h : 2 ^ 63 ≤ n.natAbs
      · rw [if_pos h, if_neg (by omega)]
      · rw [if_neg h, if_pos (by omega)]
        congr 1
        omega
  · rw [if_neg hr, if_neg (by omega)]

theorem bigSetString_formatInt (n : ℤ) : bigSetString (formatInt n) = some n := by
  simp only [bigSetString, splitSign_formatInt]
  rw [if_pos ⟨formatNat_ne_nil _, all_formatNat _⟩, value_formatNat]
  simp only [decide_eq_true_eq, Option.some.injEq]
  split <;> omega

/-- **Read text.** `ParseInt` reads a sign and digits, as their value. -/
theorem parseInt_ok {n : ℤ} (h : parseInt s = .ok n) :
    (splitSign s).2 ≠ [] ∧ (splitSign s).2.all isDigit ∧
      n = (if (splitSign s).1 then -(value (splitSign s).2 : ℤ) else value (splitSign s).2) := by
  simp only [parseInt] at h
  split at h
  · simp at h
  · next un hun =>
    obtain ⟨hne, hall, rfl⟩ := parseUint_ok hun
    refine ⟨hne, hall, ?_⟩
    cases hneg : (splitSign s).1 <;> simp only [hneg, if_true, if_false, Bool.false_eq_true] at h ⊢
    all_goals
      split at h
      · simp at h
      · exact (Except.ok.inj h).symm

theorem bigSetString_some {n : ℤ} (h : bigSetString s = some n) :
    (splitSign s).2 ≠ [] ∧ (splitSign s).2.all isDigit ∧
      n = (if (splitSign s).1 then -(value (splitSign s).2 : ℤ) else value (splitSign s).2) := by
  simp only [bigSetString] at h
  split at h
  · next hu => exact ⟨hu.1, hu.2, (Option.some.inj h).symm⟩
  · simp at h

end ReliableBT.Decimal
