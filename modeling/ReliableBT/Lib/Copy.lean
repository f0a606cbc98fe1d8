import Mathlib

/-!
# Copying from a reader

A reader is the list of what reading from it returns: some elements, or an error. Behind the list it
is at its end. Nothing says that an error comes again when reading goes on.

* `copy`, `copyN`: `io.Copy` and `io.CopyN`. `copyN` never reads more than it copies, so that what
  is left of the reader can be copied next.
* `Delivers reads c`: reading gives `c`, in whatever parts, and no error.
* `length_copyN`: a `copyN` without error has copied all it was asked to, whatever the reader does.
-/

open List

namespace ReliableBT

variable {α ε : Type}

/-- What a read returns. -/
inductive Read (α ε : Type)
  | data (elems : List α)
  | error (e : ε)

/-- The error of `copyN`: the end was reached, or a read failed. -/
inductive CopyError (ε : Type)
  | eof
  | read (e : ε)
  deriving DecidableEq, Repr

/-- `io.Copy`: what is copied, and the error. -/
def copy : List (Read α ε) → List α × Option ε
  | [] => ([], none)
  | .error e :: _ => ([], some e)
  | .data b :: reads => (b ++ (copy reads).1, (copy reads).2)

/-- `io.CopyN`: what is copied, the error, and what is left of the reader. -/
def copyN : ℕ → List (Read α ε) → List α × Option (CopyError ε) × List (Read α ε)
  | 0, reads => ([], none, reads)
  | _ + 1, [] => ([], some .eof, [])
  | _ + 1, .error e :: reads => ([], some (.read e), reads)
  | n + 1, .data b :: reads =>
    if n + 1 < b.length then (b.take (n + 1), none, .data (b.drop (n + 1)) :: reads)
    else
      let rest := copyN (n + 1 - b.length) reads
      (b ++ rest.1, rest.2)

/-- Reading gives `c`, part by part. -/
def Delivers (reads : List (Read α ε)) (c : List α) : Prop :=
  ∃ chunks : List (List α), reads = chunks.map .data ∧ chunks.flatten = c

variable {reads : List (Read α ε)} {c : List α}

theorem length_copyN {n : ℕ} (h : (copyN n reads).2.1 = none) : (copyN n reads).1.length = n := by
  induction reads generalizing n with
  | nil =>
    cases n with
    | zero => rfl
    | succ n => cases h
  | cons r reads ih =>
    cases n with
    | zero => rfl
    | succ n =>
      cases r with
      | error e => cases h
      | data b =>
        rw [copyN] at h ⊢
        split_ifs at h ⊢ with hlt
        · exact length_take_of_le (Nat.le_of_lt hlt)
        · have hrest := ih h
          rw [length_append, hrest]
          omega

theorem copy_of_delivers (h : Delivers reads c) : copy reads = (c, none) := by
  obtain ⟨chunks, rfl, rfl⟩ := h
  induction chunks with
  | nil => rfl
  | cons b chunks ih => rw [map_cons, copy, ih, flatten_cons]

theorem copyN_of_delivers (h : Delivers reads c) (n : ℕ) :
    (copyN n reads).1 = c.take n ∧ Delivers (copyN n reads).2.2 (c.drop n) := by
  obtain ⟨chunks, rfl, rfl⟩ := h
  induction chunks generalizing n with
  | nil =>
    rw [flatten_nil, take_nil, drop_nil]
    cases n with
    | zero => exact ⟨rfl, [], rfl, rfl⟩
    | succ n => exact ⟨rfl, [], rfl, rfl⟩
  | cons b chunks ih =>
    cases n with
    | zero => exact ⟨rfl, b :: chunks, rfl, rfl⟩
    | succ n =>
      rw [map_cons, flatten_cons, copyN]
      split_ifs with hlt
      · have hle : n + 1 ≤ b.length := Nat.le_of_lt hlt
        refine ⟨(take_append_of_le_length hle).symm, b.drop (n + 1) :: chunks, rfl, ?_⟩
        rw [flatten_cons, drop_append_of_le_length hle]
      · obtain ⟨hcopied, hleft⟩ := ih (n + 1 - b.length)
        have hle : b.length ≤ n + 1 := Nat.le_of_not_lt hlt
        rw [take_append, drop_append, take_of_length_le hle, drop_of_length_le hle]
        exact ⟨congrArg (b ++ ·) hcopied, hleft⟩

end ReliableBT
