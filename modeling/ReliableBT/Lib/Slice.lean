import ReliableBT.Lib.Outcome

/-!
# Slices with checked access

A slice is a list that fits into memory, indexed by 64-bit integers. Every access that a program
makes by an index of its own is checked as the runtime checks it, and ends in a `Fault` if it is out
of range; indices are compared as they are, after whatever wrapping their computation did.

* `ends_get`, `ends_set`, `ends_cut`, `ends_make`, `ends_grow`: what an access ends in. The
  hypothesis allows the fault out of range: with faults excluded it asks for an access in range,
  with faults allowed it asks for nothing.
-/

open List

namespace ReliableBT

variable {α β : Type}

/-- What the runtime stops a program for. -/
inductive Fault
  | indexOutOfRange
  | sliceOutOfRange
  | makeOutOfRange
  deriving DecidableEq, Repr

/-- No allocation is larger. -/
def maxAlloc : Nat := 2 ^ 48

/-- A slice that is in memory. -/
structure Slice (α : Type) where
  elems : List α
  bounded : elems.length ≤ maxAlloc
  deriving DecidableEq

namespace Slice

/-- The slice without elements, and `nil`. -/
def empty : Slice α := ⟨[], Nat.zero_le _⟩

/-- `len(s)` -/
def len (s : Slice α) : Int64 := Int64.ofNat s.elems.length

/-- `s[i]` -/
def get (s : Slice α) (i : Int64) : Except Fault α :=
  if i < 0 then .error .indexOutOfRange
  else match s.elems[i.toInt.toNat]? with
    | some a => .ok a
    | none => .error .indexOutOfRange

/-- `s[i] = a` -/
def set (s : Slice α) (i : Int64) (a : α) : Except Fault (Slice α) :=
  if 0 ≤ i ∧ i < s.len then
    .ok ⟨s.elems.set i.toInt.toNat a, length_set.trans_le s.bounded⟩
  else .error .indexOutOfRange

/-- `s[lo:hi]` -/
def cut (s : Slice α) (lo hi : Int64) : Except Fault (Slice α) :=
  if 0 ≤ lo ∧ lo ≤ hi ∧ hi ≤ s.len then
    .ok ⟨(s.elems.take hi.toInt.toNat).drop lo.toInt.toNat,
      (length_drop.trans_le (Nat.sub_le _ _)).trans
        ((length_take_le' _ _).trans s.bounded)⟩
  else .error .sliceOutOfRange

/-- `make([]T, n)`, with all elements `a` -/
def make (n : Int64) (a : α) : Except Fault (Slice α) :=
  if h : 0 ≤ n ∧ n.toInt ≤ maxAlloc then
    .ok ⟨replicate n.toInt.toNat a, by
      rw [length_replicate]
      exact Int.toNat_le.mpr h.2⟩
  else .error .makeOutOfRange

/-- Appends `a` until there are `n` elements. -/
def grow (s : Slice α) (n : Int64) (a : α) : Except Fault (Slice α) :=
  if h : (s.elems ++ replicate (n.toInt.toNat - s.elems.length) a).length ≤ maxAlloc then
    .ok ⟨_, h⟩
  else .error .makeOutOfRange

/-- `copy(s[start:], data)`, from a `start` in range -/
def copyFrom (s : Slice α) (start : Nat) (data : List α) : Slice α where
  elems := (s.elems.take start ++ data ++ s.elems.drop (start + data.length)).take s.elems.length
  bounded := (length_take_le _ _).trans s.bounded

/-- `a` in every place -/
def fill (s : Slice α) (a : α) : Slice α where
  elems := replicate s.elems.length a
  bounded := length_replicate.trans_le s.bounded

/-! ## Lengths -/

theorem lt_two_pow (s : Slice α) : s.elems.length < 2 ^ 63 :=
  s.bounded.trans_lt (by decide)

@[simp] theorem toInt_len (s : Slice α) : s.len.toInt = s.elems.length :=
  Int64.toInt_ofNat_of_lt s.lt_two_pow

theorem len_nonneg (s : Slice α) : 0 ≤ s.len := by
  rw [Int64.le_iff_toInt_le, toInt_len]
  exact Int.natCast_nonneg _

variable {s : Slice α} {i : Int64} {a : α} {lo hi n : Int64}

theorem length_copyFrom {start : Nat} {data : List α} (h : start ≤ s.elems.length) :
    (s.copyFrom start data).elems.length = s.elems.length := by
  simp only [copyFrom, length_take, length_append, length_drop]
  omega

theorem getElem?_copyFrom {start k : Nat} {data : List α} (h : start ≤ s.elems.length)
    (hk : k < s.elems.length) :
    (s.copyFrom start data).elems[k]? =
      if start ≤ k ∧ k < start + data.length then data[k - start]? else s.elems[k]? := by
  simp only [copyFrom, getElem?_take_of_lt hk, getElem?_append, getElem?_drop, length_append,
    length_take, Nat.min_eq_left h]
  grind

@[simp] theorem length_fill (s : Slice α) (a : α) : (s.fill a).elems.length = s.elems.length :=
  length_replicate

/-! ## Accesses

Each access ends in range; out of range it ends in the fault that the runtime raises. -/

variable {E : Fault → Prop}

theorem ends_get (h : ¬ (0 ≤ i ∧ i < s.len) → E .indexOutOfRange) :
    Ends E (fun _ => True) (s.get i) := by
  unfold get
  by_cases hneg : i < 0
  · rw [if_pos hneg]
    exact h fun hr => absurd hr.1 (Int64.not_le.mpr hneg)
  · rw [if_neg hneg]
    cases hi : s.elems[i.toInt.toNat]? with
    | some a => exact trivial
    | none =>
      refine h fun hr => ?_
      have hlt : i.toInt < s.elems.length := toInt_len s ▸ Int64.lt_iff_toInt_lt.mp hr.2
      have h0 : 0 ≤ i.toInt := Int64.le_iff_toInt_le.mp hr.1
      have hlen : s.elems.length ≤ i.toInt.toNat := getElem?_eq_none_iff.mp hi
      omega

theorem get_neg (h : i < 0) : s.get i = .error .indexOutOfRange :=
  if_pos h

theorem ends_set (h : ¬ (0 ≤ i ∧ i < s.len) → E .indexOutOfRange) :
    Ends E (fun s' => s'.elems.length = s.elems.length) (s.set i a) := by
  unfold set
  by_cases hr : 0 ≤ i ∧ i < s.len
  · rw [if_pos hr]
    exact length_set
  · rw [if_neg hr]
    exact h hr

theorem ends_cut (h : ¬ (0 ≤ lo ∧ lo ≤ hi ∧ hi ≤ s.len) → E .sliceOutOfRange) :
    Ends E (fun _ => True) (s.cut lo hi) := by
  unfold cut
  by_cases hr : 0 ≤ lo ∧ lo ≤ hi ∧ hi ≤ s.len
  · rw [if_pos hr]
    exact trivial
  · rw [if_neg hr]
    exact h hr

theorem cut_neg (h : lo < 0) : s.cut lo hi = .error .sliceOutOfRange :=
  if_neg fun hc => absurd hc.1 (Int64.not_le.mpr h)

theorem ends_make (h : ¬ (0 ≤ n ∧ n.toInt ≤ maxAlloc) → E .makeOutOfRange) :
    Ends E (fun s => 0 ≤ n ∧ (s.elems.length : Int) = n.toInt) (make n a) := by
  unfold make
  by_cases hr : 0 ≤ n ∧ n.toInt ≤ maxAlloc
  · rw [dif_pos hr]
    refine ⟨hr.1, ?_⟩
    rw [length_replicate]
    exact Int.toNat_of_nonneg (Int64.le_iff_toInt_le.mp hr.1)
  · rw [dif_neg hr]
    exact h hr

theorem ends_grow (h : ¬ n.toInt ≤ maxAlloc → E .makeOutOfRange) :
    Ends E (fun s' => n.toInt ≤ s'.elems.length) (s.grow n a) := by
  have hlen := s.bounded
  have hgrown : (s.elems ++ replicate (n.toInt.toNat - s.elems.length) a).length =
      max s.elems.length n.toInt.toNat := by
    rw [length_append, length_replicate]
    omega
  unfold grow
  by_cases hr : (s.elems ++ replicate (n.toInt.toNat - s.elems.length) a).length ≤ maxAlloc
  · rw [dif_pos hr]
    change n.toInt ≤ ((s.elems ++ _).length : Int)
    omega
  · rw [dif_neg hr]
    refine h fun hn => hr ?_
    omega

end Slice

end ReliableBT
