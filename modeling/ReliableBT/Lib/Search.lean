import Mathlib

/-!
# Binary search

`search n f` is `sort.Search(n, f)`: the first index below `n` where `f` is true, if `f` stays true
once it is, and `n` if there is none.

* `splits_search`: `f` is false before the index and true from it on.
-/

namespace ReliableBT

/-- The loop of `sort.Search`; every round makes `j - i` smaller. -/
def searchLoop (f : ℕ → Bool) : ℕ → ℕ → ℕ → ℕ
  | 0, i, _ => i
  | fuel + 1, i, j =>
    if i < j then
      let h := (i + j) / 2
      if f h then searchLoop f fuel i h else searchLoop f fuel (h + 1) j
    else i

/-- `sort.Search` -/
def search (n : ℕ) (f : ℕ → Bool) : ℕ := searchLoop f n 0 n

/-- The index splits the numbers below `n`. -/
structure Splits (n : ℕ) (f : ℕ → Bool) (r : ℕ) : Prop where
  le : r ≤ n
  before : ∀ k < r, f k = false
  after : ∀ k, r ≤ k → k < n → f k = true

theorem splits_searchLoop {n : ℕ} {f : ℕ → Bool} (hf : ∀ a b, a ≤ b → b < n → f a → f b)
    (fuel i j : ℕ) (hfuel : j - i ≤ fuel) (hij : i ≤ j) (hj : j ≤ n)
    (hbefore : ∀ k < i, f k = false) (hafter : ∀ k, j ≤ k → k < n → f k = true) :
    Splits n f (searchLoop f fuel i j) := by
  induction fuel generalizing i j with
  | zero =>
    obtain rfl : i = j := by omega
    exact ⟨hj, hbefore, hafter⟩
  | succ fuel ih =>
    rw [searchLoop]
    split
    · next hlt =>
      dsimp only
      split
      · next hh =>
        refine ih i ((i + j) / 2) (by omega) (by omega) (by omega) hbefore ?_
        intro k hk hkn
        exact hf _ k hk hkn hh
      · next hh =>
        refine ih ((i + j) / 2 + 1) j (by omega) (by omega) hj ?_ hafter
        intro k hk
        -- were `f` true at `k`, it would be true at the middle, too
        by_contra hk'
        have hk'' : f k = true := by simpa using hk'
        exact hh (hf k _ (by omega) (by omega) hk'')
    · next hle =>
      obtain rfl : i = j := by omega
      exact ⟨hj, hbefore, hafter⟩

/-- **Search.** If `f` stays true once it is, it is false before the index and true from it on. -/
theorem splits_search {n : ℕ} {f : ℕ → Bool} (hf : ∀ a b, a ≤ b → b < n → f a → f b) :
    Splits n f (search n f) :=
  splits_searchLoop hf n 0 n (by omega) (Nat.zero_le n) (Nat.le_refl n) (by simp) (by omega)

end ReliableBT
