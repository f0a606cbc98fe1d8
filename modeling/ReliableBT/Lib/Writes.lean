import Mathlib

/-!
# Writes to byte arrays

A store keeps byte arrays, each under a key, that grow as they are written to. What it should do is
said by the writes: a byte is the one that the last write to its place wrote there. A write may also
make places beside it appear, filled with zeros, as a file system does that extends a file, or a
store that keeps blocks of a fixed size.

`Sparse` is this law for one write. It says nothing about how the store keeps the arrays; `view` is
how it is looked at.

* `Sparse.run`: what the law gives for a sequence of writes.
-/

open List Option Nat

namespace ReliableBT

variable {ι σ : Type} [DecidableEq ι]

/-- The bytes `data` from the place `off` on, in the array `array`. -/
structure Write (ι : Type) where
  array : ι
  off : ℕ
  data : List UInt8
  deriving DecidableEq

/-- What is written to a place. -/
def Write.byte (w : Write ι) (a : ι) (k : ℕ) : Option UInt8 :=
  if w.array = a ∧ w.off ≤ k then w.data[k - w.off]? else none

/-- What is written to a place last. -/
def lastWritten : List (Write ι) → ι → ℕ → Option UInt8
  | [], _, _ => none
  | w :: ws, a, k => (lastWritten ws a k).or (w.byte a k)

/-- A write that is allowed keeps the invariant; the bytes that it writes are then in their places,
the others are as before, and those that it touches without writing to them are there. -/
def Sparse (inv : σ → Prop) (allowed : Write ι → Prop) (touch : Write ι → ι → ℕ → Bool)
    (view : σ → ι → ℕ → Option UInt8) (step : σ → Write ι → σ) : Prop :=
  ∀ s w, inv s → allowed w → inv (step s w) ∧ ∀ a k, view (step s w) a k =
    ((w.byte a k).or (view s a k)).or (if touch w a k then some 0 else none)

variable {inv : σ → Prop} {allowed : Write ι → Prop} {touch : Write ι → ι → ℕ → Bool}
  {view : σ → ι → ℕ → Option UInt8} {step : σ → Write ι → σ}

variable {ws : List (Write ι)} {a : ι} {k : ℕ} {w : Write ι} {o : ℕ} {d : List UInt8}

/-- **A sequence of writes.** A place has what was written to it last, or else what it had before,
or zero if it was touched. -/
theorem Sparse.run (h : Sparse inv allowed touch view step) {s : σ} (hs : inv s)
    (hws : ∀ w ∈ ws, allowed w) :
    inv (ws.foldl step s) ∧ ∀ a k, view (ws.foldl step s) a k =
      ((lastWritten ws a k).or (view s a k)).or
        (if ws.any fun w => touch w a k then some 0 else none) := by
  induction ws generalizing s with
  | nil => exact ⟨hs, fun a k => by simp [lastWritten]⟩
  | cons w ws ih =>
    obtain ⟨hinv, hview⟩ := h s w hs (hws w mem_cons_self)
    obtain ⟨hrun, hlast⟩ := ih hinv fun w' hw' => hws w' (mem_cons_of_mem w hw')
    refine ⟨hrun, fun a k => ?_⟩
    rw [foldl_cons, hlast, hview, lastWritten, any_cons]
    cases lastWritten ws a k <;> cases w.byte a k <;> cases view s a k <;> cases touch w a k <;>
      simp

theorem isSome_lastWritten_iff : (lastWritten ws a k).isSome ↔ ∃ w ∈ ws, (w.byte a k).isSome := by
  induction ws with
  | nil => simp [lastWritten]
  | cons w ws ih => simp [lastWritten, ih, or_comm]

/-! ## Writes that do not overlap -/

/-- The writes to a place all start in the same place and have the same length. -/
structure Apart (ws : List (Write ι)) : Prop where
  repeats : ∀ w ∈ ws, ∀ w' ∈ ws, w.array = w'.array → w.off = w'.off →
    w.data.length = w'.data.length
  disjoint : ∀ w ∈ ws, ∀ w' ∈ ws, ∀ a k, (w.byte a k).isSome → (w'.byte a k).isSome →
    w.off = w'.off

/-- The data of the last write that starts in a place. -/
def lastAt : List (Write ι) → ι → ℕ → Option (List UInt8)
  | [], _, _ => none
  | w :: ws, a, o => (lastAt ws a o).or (if w.array = a ∧ w.off = o then some w.data else none)

theorem isSome_byte_iff :
    (w.byte a k).isSome ↔ w.array = a ∧ w.off ≤ k ∧ k < w.off + w.data.length := by
  rw [Write.byte]
  split
  · next h =>
    obtain ⟨ha, hlo⟩ := h
    rw [isSome_iff_ne_none, ne_eq, getElem?_eq_none_iff]
    constructor
    · intro hin
      exact ⟨ha, hlo, by omega⟩
    · rintro ⟨-, -, hhi⟩
      omega
  · next h =>
    constructor
    · intro hnone
      cases hnone
    · rintro ⟨ha, hlo, -⟩
      exact absurd ⟨ha, hlo⟩ h

theorem byte_eq_none (h : w.array = a → ¬ (w.off ≤ k ∧ k < w.off + w.data.length)) :
    w.byte a k = none := by
  rw [← not_isSome_iff_eq_none, isSome_byte_iff]
  exact fun hin => h hin.1 hin.2

theorem lastWritten_cons_of_not (h : ¬ (w.off ≤ k ∧ k < w.off + w.data.length)) :
    lastWritten (w :: ws) a k = lastWritten ws a k := by
  rw [lastWritten, byte_eq_none fun _ => h, or_none]

theorem lastAt_append (ws : List (Write ι)) (w : Write ι) (a : ι) (o : ℕ) :
    lastAt (ws ++ [w]) a o = if w.array = a ∧ w.off = o then some w.data else lastAt ws a o := by
  induction ws with
  | nil => simp [lastAt]
  | cons w' ws ih =>
    rw [cons_append, lastAt, ih, lastAt]
    split <;> rfl

theorem mem_of_lastAt (h : lastAt ws a o = some d) : ⟨a, o, d⟩ ∈ ws := by
  induction ws with
  | nil => cases h
  | cons w ws ih =>
    rw [lastAt, or_eq_some_iff] at h
    rcases h with h | ⟨-, h⟩
    · exact mem_cons_of_mem w (ih h)
    · split at h
      · next hw =>
        obtain ⟨rfl, rfl⟩ := hw
        rw [← some.inj h]
        exact mem_cons_self
      · cases h

theorem isSome_lastAt (h : w ∈ ws) : (lastAt ws w.array w.off).isSome := by
  induction ws with
  | nil => cases h
  | cons w' ws ih =>
    rw [lastAt, isSome_or, Bool.or_eq_true]
    rcases mem_cons.mp h with rfl | h
    · right
      rw [if_pos ⟨rfl, rfl⟩]
      rfl
    · exact .inl (ih h)

theorem Apart.tail (h : Apart (w :: ws)) : Apart ws where
  repeats w₁ h₁ w₂ h₂ := h.repeats w₁ (mem_cons_of_mem w h₁) w₂ (mem_cons_of_mem w h₂)
  disjoint w₁ h₁ w₂ h₂ := h.disjoint w₁ (mem_cons_of_mem w h₁) w₂ (mem_cons_of_mem w h₂)

theorem lastWritten_of_lastAt (h : Apart ws) (hd : lastAt ws a o = some d) (hlo : o ≤ k)
    (hhi : k < o + d.length) : lastWritten ws a k = d[k - o]? := by
  induction ws with
  | nil => cases hd
  | cons w ws ih =>
    have hcovers := isSome_byte_iff (w := ⟨a, o, d⟩) (a := a) (k := k) |>.mpr ⟨rfl, hlo, hhi⟩
    rw [lastAt] at hd
    rw [lastWritten]
    cases hlast : lastAt ws a o with
    | some d' =>
      rw [hlast, some_or] at hd
      have hrest := ih h.tail (hlast.trans hd)
      rw [hrest, getElem?_eq_getElem (by omega), some_or]
    | none =>
      rw [hlast, none_or] at hd
      split at hd
      · next hw =>
        obtain ⟨rfl, rfl⟩ := hw
        obtain rfl := some.inj hd
        -- a later write to the place would start in the same place
        have hnone : lastWritten ws w.array k = none := by
          rw [← not_isSome_iff_eq_none, isSome_lastWritten_iff]
          rintro ⟨w', hw', hsome⟩
          have hoff := h.disjoint w mem_cons_self w' (mem_cons_of_mem w hw') _ _ hcovers hsome
          have hlater := isSome_lastAt hw'
          rw [(isSome_byte_iff.mp hsome).1, ← hoff, hlast] at hlater
          cases hlater
        rw [hnone, none_or, Write.byte, if_pos ⟨rfl, hlo⟩]
      · cases hd

theorem lastWritten_congr {ws' : List (Write ι)} (h : Apart ws) (h' : Apart ws')
    (hat : ∀ o, lastAt ws a o = lastAt ws' a o) (k : ℕ) :
    lastWritten ws a k = lastWritten ws' a k := by
  have key : ∀ {ws ws' : List (Write ι)}, Apart ws → Apart ws' →
      (∀ o, lastAt ws a o = lastAt ws' a o) → (lastWritten ws a k).isSome →
      lastWritten ws a k = lastWritten ws' a k := by
    intro ws ws' h h' hat hsome
    obtain ⟨w, hw, hbyte⟩ := isSome_lastWritten_iff.mp hsome
    obtain ⟨rfl, hlo, hhi⟩ := isSome_byte_iff.mp hbyte
    obtain ⟨d, hd⟩ := isSome_iff_exists.mp (isSome_lastAt hw)
    have hlen := h.repeats w hw _ (mem_of_lastAt hd) rfl rfl
    dsimp only at hlen
    rw [lastWritten_of_lastAt h hd hlo (by omega),
      lastWritten_of_lastAt h' ((hat _).symm.trans hd) hlo (by omega)]
  by_cases hsome : (lastWritten ws a k).isSome
  · exact key h h' hat hsome
  · by_cases hsome' : (lastWritten ws' a k).isSome
    · exact (key h' h (fun o => (hat o).symm) hsome').symm
    · rw [not_isSome_iff_eq_none.mp hsome, not_isSome_iff_eq_none.mp hsome']

/-! ## Runs -/

variable {α : Type} {f g : ℕ → Option α}

/-- The longest run of values from a place on, with at most `n` of them. -/
def longestRun (f : ℕ → Option α) : ℕ → ℕ → List α
  | _, 0 => []
  | k, n + 1 =>
    match f k with
    | none => []
    | some v => v :: longestRun f (k + 1) n

theorem longestRun_of_none (h : f k = none) (n : ℕ) : longestRun f k n = [] := by
  cases n with
  | zero => rfl
  | succ n => rw [longestRun, h]

theorem longestRun_add {vs : List α} {k : ℕ} (h : ∀ i < vs.length, f (k + i) = vs[i]?) (n : ℕ) :
    longestRun f k (vs.length + n) = vs ++ longestRun f (k + vs.length) n := by
  induction vs generalizing k with
  | nil => rw [length_nil, zero_add, add_zero, nil_append]
  | cons v vs ih =>
    have hv : f k = some v := h 0 (succ_pos _)
    have hrest := @ih (k + 1) fun i hi => by
      have := h (i + 1) (succ_lt_succ hi)
      rwa [getElem?_cons_succ, add_comm i, ← add_assoc] at this
    rw [length_cons, add_right_comm, longestRun, hv]
    dsimp only
    rw [hrest, cons_append, add_right_comm k 1]
    rfl

theorem longestRun_congr (h : ∀ i, k ≤ i → f i = g i) (n : ℕ) :
    longestRun f k n = longestRun g k n := by
  induction n generalizing k with
  | zero => rfl
  | succ n ih =>
    rw [longestRun, longestRun, h k (le_refl k), ih fun i hi => h i (by omega)]

theorem length_longestRun_le (f : ℕ → Option α) (k n : ℕ) : (longestRun f k n).length ≤ n := by
  induction n generalizing k with
  | zero => exact le_refl 0
  | succ n ih =>
    rw [longestRun]
    split
    · exact zero_le _
    · exact succ_le_succ (ih (k + 1))

theorem getElem?_longestRun {k n : ℕ} (h : ∀ i < n, (f (k + i)).isSome) :
    (longestRun f k n).length = n ∧ ∀ i < n, (longestRun f k n)[i]? = f (k + i) := by
  induction n generalizing k with
  | zero => exact ⟨rfl, by omega⟩
  | succ n ih =>
    obtain ⟨v, hv⟩ := isSome_iff_exists.mp (h 0 (succ_pos n))
    obtain ⟨hlen, hat⟩ := @ih (k + 1) fun i hi => by
      have := h (i + 1) (succ_lt_succ hi)
      rwa [add_comm i, ← add_assoc] at this
    rw [add_zero] at hv
    rw [longestRun, hv]
    refine ⟨congrArg (· + 1) hlen, fun i hi => ?_⟩
    cases i with
    | zero => exact hv.symm
    | succ i =>
      rw [getElem?_cons_succ, hat i (by omega), add_comm i, ← add_assoc]

/-- Runs inside of a run without a gap, or up to its end if nothing follows. -/
theorem longestRun_part {n : ℕ} (hfull : ∀ i < n, (f i).isSome) {m : ℕ}
    (h : k + m ≤ n ∨ ∀ i, n ≤ i → f i = none) :
    longestRun f k m = ((longestRun f 0 n).drop k).take m := by
  obtain ⟨hlen, hat⟩ := @getElem?_longestRun α f 0 n fun i hi => by
    rw [Nat.zero_add]
    exact hfull i hi
  generalize longestRun f 0 n = vs at hlen hat
  have hsize : ((vs.drop k).take m).length = min m (n - k) := by
    rw [length_take, length_drop, hlen]
  have hpart : ∀ i < ((vs.drop k).take m).length, f (k + i) = ((vs.drop k).take m)[i]? := by
    intro i hi
    rw [getElem?_take_of_lt (by omega), getElem?_drop, hat (k + i) (by omega),
      zero_add]
  have hrun := longestRun_add hpart (m - ((vs.drop k).take m).length)
  rw [Nat.add_sub_cancel' (by omega)] at hrun
  rw [hrun]
  -- nothing follows, or nothing more is asked for
  have hend : longestRun f (k + ((vs.drop k).take m).length)
      (m - ((vs.drop k).take m).length) = [] := by
    by_cases hall : ((vs.drop k).take m).length = m
    · rw [hall, Nat.sub_self, longestRun]
    · rcases h with hin | hnone
      · omega
      · exact longestRun_of_none (hnone _ (by omega)) _
  rw [hend, append_nil]

end ReliableBT
