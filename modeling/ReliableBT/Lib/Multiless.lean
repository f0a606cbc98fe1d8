import Mathlib

/-!
# Comparisons by the first difference

The package `multiless` compares two things by one property after the other. It is not part of the
repository, and what it does is a parameter here: a `Computation` is the sequence of comparisons
that it has been given, and a `Multiless` is a `LessOk` that follows the first of them that differs.
`Int`, `Bool`, `CmpInt64` and so on are one comparison each, and `Lazy` puts two sequences together.
-/

namespace ReliableBT

/-- `Computation`: the comparisons so far, none for `New`. -/
abbrev Computation := List Ordering

/-- The first comparison that differs. -/
def Computation.result (c : Computation) : Ordering := c.foldr Ordering.then .eq

/-- `SameLess` -/
def sameLess (same less : Bool) : Ordering := if same then .eq else if less then .lt else .gt

/-- A package that compares lexicographically. -/
structure Multiless where
  /-- `LessOk` -/
  lessOk : Computation → Bool × Bool
  lexicographic : ∀ c, lessOk c = (c.result == .lt, c.result != .eq)

namespace Multiless

variable (ml : Multiless) (c : Computation)

/-- `Less`, and `MustLess` of a computation that is `Ok` -/
def less : Bool := (ml.lessOk c).1

/-- `Ok` -/
def ok : Bool := (ml.lessOk c).2

/-- A package that does. -/
def ordering : Multiless := ⟨fun c => (c.result == .lt, c.result != .eq), fun _ => rfl⟩

@[simp] theorem less_eq : ml.less c = (c.result == .lt) := by rw [less, ml.lexicographic]

@[simp] theorem ok_eq : ml.ok c = (c.result != .eq) := by rw [ok, ml.lexicographic]

end Multiless

@[simp] theorem Computation.result_nil : Computation.result [] = .eq := rfl

@[simp] theorem Computation.result_cons (o : Ordering) (c : Computation) :
    Computation.result (o :: c) = o.then c.result := rfl

theorem Computation.result_append (c d : Computation) :
    Computation.result (c ++ d) = c.result.then d.result := by
  induction c with
  | nil => rfl
  | cons o c ih => rw [List.cons_append, result_cons, ih, result_cons, Ordering.then_assoc]

end ReliableBT
