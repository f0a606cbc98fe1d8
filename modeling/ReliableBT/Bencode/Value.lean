import ReliableBT.Lib.Decimal

/-!
# Bencode values (`bencode/encode.go`)

What `bencode` decodes into an `interface{}`, and how `Marshal` writes it (`reflectValue`,
`reflectSequence`, `reflectString`).

* `Number` is an `int64` or, outside of its range, a `*big.Int`.
* A Go map is the list of its entries in the order of the keys. `Marshal` sorts the keys of a map,
  so it goes through the entries in this order.
* Strings are bytes, and compare bytewise (`ord`).

`WellFormed m v` is a value all of whose maps are in order and whose strings, keys included, have
no more than `m` bytes.
-/

namespace ReliableBT.Bencode

open Decimal List

/-- A Go string. -/
abbrev Str := List UInt8

/-- The key by which Go compares strings. -/
def ord (s : Str) : List ℕ := s.map UInt8.toNat

theorem ord_injective : Function.Injective ord :=
  map_injective_iff.mpr fun _ _ h => UInt8.toNat_inj.mp h

/-! ## Numbers -/

/-- What `parseIntInterface` returns: an `int64`, or a `*big.Int` for what does not fit one. -/
inductive Number
  | int64 (n : Int64)
  | big (n : ℤ) (h : n < -2 ^ 63 ∨ 2 ^ 63 ≤ n)
  deriving DecidableEq

namespace Number

/-- The number itself. -/
def toInt : Number → ℤ
  | int64 n => n.toInt
  | big n _ => n

/-- The Go number of an integer. -/
def ofInt (n : ℤ) : Number :=
  if h : -2 ^ 63 ≤ n ∧ n < 2 ^ 63 then int64 (Int64.ofInt n) else big n (by omega)

@[simp] theorem toInt_ofInt (n : ℤ) : (ofInt n).toInt = n := by
  rw [ofInt]
  split
  · next h => exact Int64.toInt_ofInt_of_le (by omega) (by omega)
  · rfl

@[simp] theorem ofInt_toInt (n : Number) : ofInt n.toInt = n := by
  cases n with
  | int64 n =>
    have hlo := n.le_toInt
    have hhi := n.toInt_lt
    rw [ofInt, toInt, dif_pos (by omega), Int64.ofInt_toInt]
  | big n h => rw [ofInt, toInt, dif_neg (by omega)]

end Number

/-! ## Values -/

/-- What an `interface{}` holds after decoding. -/
inductive Value
  | int (n : Number)
  | str (s : Str)
  | list (xs : List Value)
  | dict (es : List (Str × Value))

namespace Value

/-- Induction with the items of a list and the values of a map as hypotheses. -/
@[elab_as_elim, induction_eliminator]
theorem rec' {motive : Value → Prop} (int : ∀ n, motive (int n)) (str : ∀ s, motive (str s))
    (list : ∀ xs, (∀ x ∈ xs, motive x) → motive (list xs))
    (dict : ∀ es, (∀ e ∈ es, motive e.2) → motive (dict es)) : ∀ v, motive v
  | .int n => int n
  | .str s => str s
  | .list xs => list xs fun x _ => rec' int str list dict x
  | .dict es => dict es fun e _ => rec' int str list dict e.2
  decreasing_by
    · have := sizeOf_lt_of_mem ‹x ∈ xs›
      simp only [Value.list.sizeOf_spec]
      omega
    · have := sizeOf_lt_of_mem ‹e ∈ es›
      have : sizeOf e.2 < sizeOf e := by
        cases e
        simp
      simp only [Value.dict.sizeOf_spec]
      omega

end Value

/-- `reflectString`: the length, a colon, the bytes. -/
def reflectString (s : Str) : Str := formatNat s.length ++ 58 :: s

mutual

/-- `Marshal`, as `reflectValue` writes what an `interface{}` holds. -/
def marshal : Value → Str
  | .int n => 105 :: (formatInt n.toInt ++ [101])
  | .str s => reflectString s
  | .list xs => 108 :: (marshalItems xs ++ [101])
  | .dict es => 100 :: (marshalEntries es ++ [101])

/-- The loop of `reflectSequence`. -/
def marshalItems : List Value → Str
  | [] => []
  | x :: xs => marshal x ++ marshalItems xs

/-- The loop over the sorted keys of a map. -/
def marshalEntries : List (Str × Value) → Str
  | [] => []
  | (k, x) :: es => reflectString k ++ (marshal x ++ marshalEntries es)

end

theorem marshalEntries_append (es es' : List (Str × Value)) :
    marshalEntries (es ++ es') = marshalEntries es ++ marshalEntries es' := by
  induction es with
  | nil => rfl
  | cons e es ih =>
    obtain ⟨k, x⟩ := e
    simp only [cons_append, marshalEntries, ih, append_assoc]

theorem marshal_cons (v : Value) :
    ∃ b s, marshal v = b :: s ∧ b ≠ 101 ∧ (b = 105 ∨ b = 108 ∨ b = 100 ∨ isDigit b) := by
  cases v with
  | int n => exact ⟨105, _, rfl, by decide, .inl rfl⟩
  | str s =>
    obtain ⟨b, u, hbu⟩ := exists_cons_of_ne_nil (formatNat_ne_nil s.length)
    have hb : isDigit b := by
      have h := all_formatNat s.length
      rw [hbu, all_cons, Bool.and_eq_true] at h
      exact h.1
    refine ⟨b, u ++ 58 :: s, by rw [marshal, reflectString, hbu]; rfl, ?_, .inr (.inr (.inr hb))⟩
    rintro rfl
    exact absurd hb (by decide)
  | list xs => exact ⟨108, _, rfl, by decide, .inr (.inl rfl)⟩
  | dict es => exact ⟨100, _, rfl, by decide, .inr (.inr (.inl rfl))⟩

theorem length_marshal_pos (v : Value) : 0 < (marshal v).length := by
  obtain ⟨b, s, h, -⟩ := marshal_cons v
  rw [h]
  simp

/-! ## Maps as sorted lists -/

section Maps
variable {α : Type}

/-- `m[key] = x` -/
def setKey (k : Str) (x : α) : List (Str × α) → List (Str × α)
  | [] => [(k, x)]
  | (k', x') :: es =>
    if ord k < ord k' then (k, x) :: (k', x') :: es
    else if k = k' then (k, x) :: es
    else (k', x') :: setKey k x es

/-- The entries are in the order of their keys, which are all different. -/
def Ascending (es : List (Str × α)) : Prop := es.Pairwise fun e e' => ord e.1 < ord e'.1

instance (es : List (Str × α)) : Decidable (Ascending es) :=
  inferInstanceAs (Decidable (es.Pairwise fun e e' => ord e.1 < ord e'.1))

/-- **A last key.** A key above all others goes to the end. -/
theorem setKey_last {k : Str} {x : α} {es : List (Str × α)} (h : ∀ e ∈ es, ord e.1 < ord k) :
    setKey k x es = es ++ [(k, x)] := by
  induction es with
  | nil => rfl
  | cons e es ih =>
    obtain ⟨k', x'⟩ := e
    have hlt : ord k' < ord k := h _ (mem_cons_self ..)
    have hne : k ≠ k' := fun he => absurd (he ▸ hlt) (lt_irrefl _)
    rw [setKey, if_neg (lt_asymm hlt), if_neg hne, ih fun e he => h e (mem_cons_of_mem _ he)]
    rfl

theorem ascending_snoc {k : Str} {x : α} {es : List (Str × α)} :
    Ascending (es ++ [(k, x)]) ↔ Ascending es ∧ ∀ e ∈ es, ord e.1 < ord k := by
  simp [Ascending, pairwise_append]

end Maps

/-! ## Well-formed values -/

mutual

/-- Maps are in order, and no string is longer than `m`. -/
def WellFormed (m : ℤ) : Value → Prop
  | .int _ => True
  | .str s => (s.length : ℤ) ≤ m
  | .list xs => WellFormedItems m xs
  | .dict es => Ascending es ∧ WellFormedEntries m es

/-- `WellFormed` for every item of a list. -/
def WellFormedItems (m : ℤ) : List Value → Prop
  | [] => True
  | x :: xs => WellFormed m x ∧ WellFormedItems m xs

/-- `WellFormed` for every entry of a map. -/
def WellFormedEntries (m : ℤ) : List (Str × Value) → Prop
  | [] => True
  | (k, x) :: es => (k.length : ℤ) ≤ m ∧ WellFormed m x ∧ WellFormedEntries m es

end

mutual

/-- `WellFormed` is decidable. -/
def decWellFormed (m : ℤ) : (v : Value) → Decidable (WellFormed m v)
  | .int _ => .isTrue trivial
  | .str s => inferInstanceAs (Decidable ((s.length : ℤ) ≤ m))
  | .list xs => decWellFormedItems m xs
  | .dict es => @instDecidableAnd _ _ inferInstance (decWellFormedEntries m es)

/-- `WellFormedItems` is decidable. -/
def decWellFormedItems (m : ℤ) : (xs : List Value) → Decidable (WellFormedItems m xs)
  | [] => .isTrue trivial
  | x :: xs => @instDecidableAnd _ _ (decWellFormed m x) (decWellFormedItems m xs)

/-- `WellFormedEntries` is decidable. -/
def decWellFormedEntries (m : ℤ) : (es : List (Str × Value)) → Decidable (WellFormedEntries m es)
  | [] => .isTrue trivial
  | (_, x) :: es =>
    @instDecidableAnd _ _ inferInstance
      (@instDecidableAnd _ _ (decWellFormed m x) (decWellFormedEntries m es))

end

instance (m : ℤ) (v : Value) : Decidable (WellFormed m v) := decWellFormed m v

theorem wellFormedItems_iff {m : ℤ} {xs : List Value} :
    WellFormedItems m xs ↔ ∀ x ∈ xs, WellFormed m x := by
  induction xs with
  | nil => simp [WellFormedItems]
  | cons x xs ih => simp [WellFormedItems, ih]

theorem wellFormedEntries_iff {m : ℤ} {es : List (Str × Value)} :
    WellFormedEntries m es ↔ ∀ e ∈ es, (e.1.length : ℤ) ≤ m ∧ WellFormed m e.2 := by
  induction es with
  | nil => simp [WellFormedEntries]
  | cons e es ih =>
    obtain ⟨k, x⟩ := e
    simp [WellFormedEntries, ih, and_assoc]

mutual

/-- Only empty containers: a value without a single number or string. -/
def hollow : Value → Bool
  | .int _ => false
  | .str _ => false
  | .list xs => hollowItems xs
  | .dict es => es.isEmpty

/-- `hollow` for every item of a list. -/
def hollowItems : List Value → Bool
  | [] => true
  | x :: xs => hollow x && hollowItems xs

end

theorem hollowItems_iff {xs : List Value} : hollowItems xs ↔ ∀ x ∈ xs, hollow x := by
  induction xs with
  | nil => simp [hollowItems]
  | cons x xs ih => simp [hollowItems, ih]

end ReliableBT.Bencode
