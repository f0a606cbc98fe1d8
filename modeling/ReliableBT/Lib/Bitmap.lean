import Mathlib

/-!
# Bitmaps: finite sets of numbers that are iterated in ascending order

A `Bitmap` is a strictly ascending list of numbers, which carries the proof that it is one; every
operation is a definition that computes. Two bitmaps with the same members are equal
(`Bitmap.ext_mem`), so a statement about a bitmap is a statement about its members, and
`mem_add`, `mem_remove`, `mem_xor` and so on are all there is to know about the operations.

An `OrderedBitmap` also remembers the order in which its members were added.

* `Bitmap.card_eq_iff`: a bitmap of numbers below `n` has `n` members iff it has all of them.
* `Bitmap.rangeElems_congr`: how many members lie in a range depends on that range only.
-/

open List Nat

namespace ReliableBT

/-- A finite set of numbers, in ascending order. -/
structure Bitmap where
  elems : List Nat
  sorted : elems.Pairwise (· < ·)
  deriving DecidableEq

namespace Bitmap

instance : Membership Nat Bitmap := ⟨fun bm i => i ∈ bm.elems⟩

instance (bm : Bitmap) (i : Nat) : Decidable (i ∈ bm) :=
  inferInstanceAs (Decidable (i ∈ bm.elems))

variable {bm : Bitmap} {i : Nat} {a b : Bitmap} {j lo hi n : Nat} {l : List Nat}

theorem mem_elems : i ∈ bm.elems ↔ i ∈ bm := Iff.rfl

/-- No members. -/
def empty : Bitmap := ⟨[], List.Pairwise.nil⟩

instance : Inhabited Bitmap := ⟨empty⟩

/-- The number of members. -/
def card (bm : Bitmap) : Nat := bm.elems.length

/-- There are no members. -/
def isEmpty (bm : Bitmap) : Bool := bm.elems.isEmpty

/-- The members that satisfy `f`. -/
def filter (f : Nat → Bool) (bm : Bitmap) : Bitmap :=
  ⟨bm.elems.filter f, bm.sorted.filter f⟩

/-- Adds a member. -/
def add (bm : Bitmap) (i : Nat) : Bitmap where
  elems := bm.elems.filter (· < i) ++ i :: bm.elems.filter (i < ·)
  sorted := by
    refine pairwise_append.mpr ⟨bm.sorted.filter _, ?_, ?_⟩
    · refine pairwise_cons.mpr ⟨fun j hj => ?_, bm.sorted.filter _⟩
      simpa using (mem_filter.mp hj).2
    · intro j hj k hk
      have hji : j < i := by simpa using (mem_filter.mp hj).2
      rcases mem_cons.mp hk with rfl | hk
      · exact hji
      · have hik : i < k := by simpa using (mem_filter.mp hk).2
        exact hji.trans hik

/-- Takes a member out. -/
def remove (bm : Bitmap) (i : Nat) : Bitmap := bm.filter (fun j => decide (j ≠ i))

/-- Takes out the members from `lo` up to, and without, `hi`. -/
def removeRange (bm : Bitmap) (lo hi : Nat) : Bitmap :=
  bm.filter fun j => !(decide (lo ≤ j) && decide (j < hi))

/-- The members below `n`. -/
def below (bm : Bitmap) (n : Nat) : Bitmap := bm.filter fun j => decide (j < n)

/-- The numbers below `n`. -/
def range (n : Nat) : Bitmap := ⟨List.range n, List.pairwise_lt_range⟩

/-- The bitmap of the given numbers. -/
def ofList (l : List Nat) : Bitmap := l.foldl add empty

/-- The members of both. -/
def union (a b : Bitmap) : Bitmap := b.elems.foldl add a

/-- The members of just one of the two. -/
def xor (a b : Bitmap) : Bitmap :=
  (a.filter fun i => decide (i ∉ b)).union (b.filter fun i => decide (i ∉ a))

/-- The members from `lo` up to, and without, `hi`. -/
def rangeElems (bm : Bitmap) (lo hi : Nat) : List Nat :=
  bm.elems.filter fun j => decide (lo ≤ j) && decide (j < hi)

/-! ## Members -/

@[ext] theorem ext_mem (h : ∀ i, i ∈ a ↔ i ∈ b) : a = b := by
  have hperm : a.elems.Perm b.elems :=
    (perm_ext_iff_of_nodup (a.sorted.imp ne_of_lt) (b.sorted.imp ne_of_lt)).mpr h
  have heq : a.elems = b.elems := hperm.eq_of_pairwise
    (fun i j _ _ hij hji => absurd (hij.trans hji) (lt_irrefl i)) a.sorted b.sorted
  cases a
  cases b
  cases heq
  rfl

theorem nodup (bm : Bitmap) : bm.elems.Nodup := bm.sorted.imp ne_of_lt

@[simp] theorem not_mem_empty (i : Nat) : i ∉ empty := not_mem_nil

@[simp] theorem mem_filter {f : Nat → Bool} :
    i ∈ bm.filter f ↔ i ∈ bm ∧ f i = true := List.mem_filter

@[simp] theorem mem_add : j ∈ bm.add i ↔ j = i ∨ j ∈ bm := by
  change j ∈ bm.elems.filter (· < i) ++ i :: bm.elems.filter (i < ·) ↔ _
  rw [List.mem_append, List.mem_cons, List.mem_filter, List.mem_filter]
  simp only [decide_eq_true_eq, mem_elems]
  constructor
  · rintro (⟨h, -⟩ | h | ⟨h, -⟩)
    · exact .inr h
    · exact .inl h
    · exact .inr h
  · rintro (h | h)
    · exact .inr (.inl h)
    · rcases lt_trichotomy j i with hlt | heq | hgt
      · exact .inl ⟨h, hlt⟩
      · exact .inr (.inl heq)
      · exact .inr (.inr ⟨h, hgt⟩)

@[simp] theorem mem_remove : j ∈ bm.remove i ↔ j ∈ bm ∧ j ≠ i := by
  simp [remove]

@[simp] theorem mem_removeRange : j ∈ bm.removeRange lo hi ↔ j ∈ bm ∧ ¬ (lo ≤ j ∧ j < hi) := by
  rw [removeRange, mem_filter]
  simp only [Bool.not_eq_true', Bool.and_eq_false_iff, decide_eq_false_iff_not, not_and_or]

@[simp] theorem mem_below : j ∈ bm.below n ↔ j ∈ bm ∧ j < n := by
  simp [below]

@[simp] theorem mem_range : j ∈ range n ↔ j < n := List.mem_range

theorem mem_foldl_add : j ∈ l.foldl add bm ↔ j ∈ bm ∨ j ∈ l := by
  induction l generalizing bm with
  | nil => simp
  | cons i l ih =>
    rw [foldl_cons, ih, mem_add, mem_cons]
    constructor
    · rintro ((h | h) | h)
      · exact .inr (.inl h)
      · exact .inl h
      · exact .inr (.inr h)
    · rintro (h | h | h)
      · exact .inl (.inr h)
      · exact .inl (.inl h)
      · exact .inr h

@[simp] theorem mem_ofList : j ∈ ofList l ↔ j ∈ l := by
  rw [ofList, mem_foldl_add]
  simp

@[simp] theorem mem_union : j ∈ a.union b ↔ j ∈ a ∨ j ∈ b :=
  mem_foldl_add

theorem empty_union (b : Bitmap) : empty.union b = b := by
  ext i
  simp

@[simp] theorem mem_xor : j ∈ a.xor b ↔ (j ∈ a ∧ j ∉ b) ∨ (j ∈ b ∧ j ∉ a) := by
  simp [xor]

theorem isEmpty_iff : bm.isEmpty = true ↔ ∀ i, i ∉ bm := by
  rw [isEmpty, List.isEmpty_iff]
  exact eq_nil_iff_forall_not_mem

/-! ## Cardinality -/

theorem card_le_of_below (h : ∀ i ∈ bm, i < n) : bm.card ≤ n := by
  have hsub : bm.elems.Subperm (List.range n) :=
    bm.nodup.subperm fun i hi => mem_range.mpr (h i hi)
  have hle := hsub.length_le
  rw [length_range] at hle
  exact hle

theorem card_eq_iff (h : ∀ i ∈ bm, i < n) : bm.card = n ↔ ∀ i < n, i ∈ bm := by
  have hsub : bm.elems.Subperm (List.range n) :=
    bm.nodup.subperm fun i hi => mem_range.mpr (h i hi)
  constructor
  · intro hcard i hi
    have hperm := hsub.perm_of_length_le (by rw [length_range]; exact hcard.ge)
    exact hperm.mem_iff.mpr (mem_range.mpr hi)
  · intro hall
    have heq : bm = range n := ext_mem fun i => ⟨fun hi => mem_range.mpr (h i hi),
      fun hi => hall i (mem_range.mp hi)⟩
    rw [heq]
    exact List.length_range

theorem rangeElems_congr (h : ∀ j, lo ≤ j → j < hi → (j ∈ a ↔ j ∈ b)) :
    a.rangeElems lo hi = b.rangeElems lo hi := by
  have heq : a.filter (fun j => decide (lo ≤ j) && decide (j < hi)) =
      b.filter (fun j => decide (lo ≤ j) && decide (j < hi)) := by
    ext j
    simp only [mem_filter, Bool.and_eq_true, decide_eq_true_eq]
    exact and_congr_left fun hj => h j hj.1 hj.2
  exact congrArg elems heq

end Bitmap

/-! ## Bitmaps that remember the order of insertion -/

/-- A bitmap with its members in the order they were added. -/
structure OrderedBitmap where
  bitmap : Bitmap
  order : List Nat
  nodup : order.Nodup
  mem_order : ∀ i, i ∈ order ↔ i ∈ bitmap

namespace OrderedBitmap

instance : Membership Nat OrderedBitmap := ⟨fun o i => i ∈ o.bitmap⟩

instance (o : OrderedBitmap) (i : Nat) : Decidable (i ∈ o) :=
  inferInstanceAs (Decidable (i ∈ o.bitmap))

/-- No members. -/
def empty : OrderedBitmap := ⟨Bitmap.empty, [], nodup_nil, fun i => by simp⟩

instance : Inhabited OrderedBitmap := ⟨empty⟩

/-- There are no members. -/
def isEmpty (o : OrderedBitmap) : Bool := o.bitmap.isEmpty

/-- The number of members. -/
def card (o : OrderedBitmap) : Nat := o.order.length

/-- Adds a member at the back, if it is not there yet. -/
def add (o : OrderedBitmap) (i : Nat) : OrderedBitmap where
  bitmap := o.bitmap.add i
  order := if i ∈ o.bitmap then o.order else o.order ++ [i]
  nodup := by
    split
    · exact o.nodup
    · rename_i h
      refine nodup_append.mpr ⟨o.nodup, nodup_singleton i, ?_⟩
      intro j hj k hk hjk
      rw [mem_singleton] at hk
      exact h ((o.mem_order i).mp (hk ▸ hjk ▸ hj))
  mem_order j := by
    split
    · rename_i h
      rw [o.mem_order, Bitmap.mem_add]
      exact ⟨.inr, fun hj => hj.elim (fun heq => heq ▸ h) id⟩
    · rw [mem_append, mem_singleton, o.mem_order, Bitmap.mem_add, or_comm]

/-- Takes a member out. -/
def remove (o : OrderedBitmap) (i : Nat) : OrderedBitmap where
  bitmap := o.bitmap.remove i
  order := o.order.erase i
  nodup := o.nodup.erase i
  mem_order j := by
    rw [o.nodup.mem_erase_iff, o.mem_order, Bitmap.mem_remove, and_comm]

variable {o : OrderedBitmap} {i j : Nat}

@[simp] theorem mem_add : j ∈ o.add i ↔ j = i ∨ j ∈ o :=
  Bitmap.mem_add

@[simp] theorem mem_remove : j ∈ o.remove i ↔ j ∈ o ∧ j ≠ i := Bitmap.mem_remove

theorem isEmpty_iff : o.isEmpty = true ↔ ∀ i, i ∉ o := Bitmap.isEmpty_iff

theorem card_eq_zero_iff : o.card = 0 ↔ ∀ i, i ∉ o := by
  rw [card, length_eq_zero_iff, eq_nil_iff_forall_not_mem]
  exact forall_congr' fun i => not_congr (o.mem_order i)

theorem card_add (h : i ∉ o) : (o.add i).card = o.card + 1 := by
  change (if i ∈ o.bitmap then o.order else o.order ++ [i]).length = _
  have h' : i ∉ o.bitmap := h
  rw [if_neg h', length_append, length_singleton]
  rfl

end OrderedBitmap

end ReliableBT
