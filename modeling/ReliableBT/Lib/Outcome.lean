import Mathlib

/-!
# Outcomes and runs of a program that can fail

A critical section is a function `σ → Except ε σ`: it ends in a new state, or it fails. `Ends E Q`
says of an outcome that a result satisfies `Q` and a failure satisfies `E`; taking `E` to be "not
one of these" is how a development says that certain failures are unreachable while others are
allowed.

* `Ends.bind`, `Ends.foldlM`: sequencing and loops, with the loop invariant as postcondition.
* `require` and `doIf`: a check that fails, and a part that is done on a condition.
* `Meets C`: every step of a run meets the condition `C` in the state it starts from. It can be
  decided if `C` can.
* `Meets.ends`: if each step that meets `C` keeps the invariant, a whole run that meets `C` does.
-/

open List

namespace ReliableBT

variable {σ ι ε α β : Type}

/-- A result satisfies `Q`, a failure satisfies `E`. -/
def Ends (E : ε → Prop) (Q : α → Prop) : Except ε α → Prop
  | .ok a => Q a
  | .error e => E e

variable {E E' : ε → Prop} {Q Q' : α → Prop}

variable {a : α} {x : Except ε α} {motive : Except ε α → Prop} {R : β → Prop} {f : α → β}
  {I : σ → Prop} {l : List α} {s : σ} {step : σ → ι → Except ε σ} {C : σ → ι → Prop}
  {events : List ι} {D : σ → ι → Prop}

@[simp] theorem ends_ok : Ends E Q (.ok a) ↔ Q a := Iff.rfl

@[simp] theorem ends_error {e : ε} : Ends E Q (.error e) ↔ E e := Iff.rfl

@[simp] theorem ends_pure : Ends E Q (pure a : Except ε α) ↔ Q a := Iff.rfl

theorem Ends.mono (h : Ends E Q x) (hE : ∀ e, E e → E' e) (hQ : ∀ a, Q a → Q' a) :
    Ends E' Q' x := by
  cases x with
  | ok a => exact hQ a h
  | error e => exact hE e h

theorem Ends.imp (h : Ends E Q x) (hQ : ∀ a, Q a → Q' a) : Ends E Q' x :=
  h.mono (fun _ he => he) hQ

/-- Case analysis on an outcome that stands in the goal, by what is known of it. -/
@[elab_as_elim]
theorem Ends.elim (h : Ends E Q x) (error : ∀ e, E e → motive (.error e))
    (ok : ∀ a, Q a → motive (.ok a)) : motive x := by
  cases x with
  | ok a => exact ok a h
  | error e => exact error e h

@[elab_as_elim, inherit_doc Ends.elim]
theorem Ends.elim_eq (h : Ends E Q x) (error : ∀ e, x = .error e → E e → motive (.error e))
    (ok : ∀ a, x = .ok a → Q a → motive (.ok a)) : motive x := by
  cases x with
  | ok a => exact ok a rfl h
  | error e => exact error e rfl h

theorem Ends.and {Q₁ Q₂ : α → Prop} (h₁ : Ends E Q₁ x) (h₂ : Ends E' Q₂ x) :
    Ends E (fun a => Q₁ a ∧ Q₂ a) x := by
  cases x with
  | ok a => exact ⟨h₁, h₂⟩
  | error e => exact h₁

theorem Ends.bind {x : Except ε β} {f : β → Except ε α} (hx : Ends E R x)
    (hf : ∀ b, R b → Ends E Q (f b)) : Ends E Q (x >>= f) := by
  cases x with
  | ok b => exact hf b hx
  | error e => exact hx

theorem Ends.map (hx : Ends E (fun a => R (f a)) x) : Ends E R (f <$> x) := by
  cases x with
  | ok a => exact hx
  | error e => exact hx

theorem Ends.of_map (hx : Ends E R (x.map f)) : Ends E (fun a => R (f a)) x := by
  cases x with
  | ok a => exact hx
  | error e => exact hx

/-- A loop over a list keeps what each iteration keeps. -/
theorem Ends.foldlM {f : σ → α → Except ε σ} (hs : I s)
    (hstep : ∀ s, I s → ∀ a ∈ l, Ends E I (f s a)) : Ends E I (l.foldlM f s) := by
  induction l generalizing s with
  | nil => exact hs
  | cons a l ih =>
    rw [foldlM_cons]
    refine Ends.bind (hstep s hs a mem_cons_self) fun s' hs' => ih hs' ?_
    exact fun s'' hs'' b hb => hstep s'' hs'' b (mem_cons_of_mem a hb)

/-- A loop over a list whose invariant follows the part of the list still to come. -/
theorem Ends.foldlM_list {I : List α → σ → Prop} {f : σ → α → Except ε σ} (hs : I l s)
    (hstep : ∀ a l' s, I (a :: l') s → Ends E (I l') (f s a)) : Ends E (I []) (l.foldlM f s) := by
  induction l generalizing s with
  | nil => exact hs
  | cons a l ih =>
    rw [foldlM_cons]
    exact Ends.bind (hstep a l s hs) fun s' hs' => ih hs'

/-- A loop over the numbers below `n` whose invariant follows the number. -/
theorem Ends.foldlM_range {I : Nat → σ → Prop} {f : σ → Nat → Except ε σ} {n : Nat} (hs : I 0 s)
    (hstep : ∀ k < n, ∀ s, I k s → Ends E (I (k + 1)) (f s k)) :
    Ends E (I n) ((range n).foldlM f s) := by
  induction n with
  | zero => exact hs
  | succ n ih =>
    rw [range_succ, foldlM_append]
    refine (ih fun k hk => hstep k (Nat.lt_succ_of_lt hk)).bind fun s' hs' => ?_
    exact (hstep n (Nat.lt_succ_self n) s' hs').bind fun s'' hs'' => hs''

theorem foldl_keeps {f : σ → α → σ} (hs : I s) (hstep : ∀ s, I s → ∀ a ∈ l, I (f s a)) :
    I (l.foldl f s) := by
  induction l generalizing s with
  | nil => exact hs
  | cons a l ih =>
    exact ih (hstep s hs a mem_cons_self) fun s' hs' b hb => hstep s' hs' b (mem_cons_of_mem a hb)

instance Ends.decidable [DecidablePred E] [DecidablePred Q] : DecidablePred (Ends E Q)
  | .ok a => inferInstanceAs (Decidable (Q a))
  | .error e => inferInstanceAs (Decidable (E e))

/-- The outcome is the failure `e`. -/
def FailsWith (e : ε) : Except ε α → Prop := Ends (· = e) fun _ => False

instance [DecidableEq ε] (e : ε) : DecidablePred (FailsWith (α := α) e) :=
  inferInstanceAs (DecidablePred (Ends _ _))

/-- A result, if there is one, satisfies `Q`. -/
abbrev Gives (Q : α → Prop) : Except ε α → Prop := Ends (fun _ => True) Q

/-- There is a result, and it satisfies `Q`. -/
def Reaches (Q : α → Prop) : Except ε α → Prop := Ends (fun _ => False) Q

instance [DecidablePred Q] : DecidablePred (Reaches (ε := ε) Q) :=
  inferInstanceAs (DecidablePred (Ends _ _))

/-! ## Checks and optional parts -/

/-- Fails with `e` unless `c` holds. -/
def require (c : Prop) [Decidable c] (e : ε) : Except ε Unit := if c then .ok () else .error e

/-- Does `x` if `c` holds, and otherwise leaves the state `s`. -/
def doIf (c : Prop) [Decidable c] (s : σ) (x : Except ε σ) : Except ε σ := if c then x else .ok s

theorem Ends.require {c : Prop} [Decidable c] {e : ε} {f : Unit → Except ε α}
    (hc : c → Ends E Q (f ())) (he : ¬ c → E e) : Ends E Q (require c e >>= f) := by
  unfold ReliableBT.require
  by_cases h : c
  · rw [if_pos h]
    exact hc h
  · rw [if_neg h]
    exact he h

theorem Ends.doIf {c : Prop} [Decidable c] {s : σ} {x : Except ε σ} {Q : σ → Prop}
    (hc : c → Ends E Q x) (hs : ¬ c → Q s) : Ends E Q (doIf c s x) := by
  unfold ReliableBT.doIf
  by_cases h : c
  · rw [if_pos h]
    exact hc h
  · rw [if_neg h]
    exact hs h

/-! ## Runs -/

/-- The state after the events, in order; the first failure ends the run. -/
def run (step : σ → ι → Except ε σ) (s : σ) (events : List ι) : Except ε σ :=
  events.foldlM step s

/-- Each step of the run meets `C` in the state it starts from. -/
def Meets (step : σ → ι → Except ε σ) (C : σ → ι → Prop) : σ → List ι → Prop
  | _, [] => True
  | s, e :: events => C s e ∧ ∀ s', step s e = .ok s' → Meets step C s' events

instance Meets.decidable {step : σ → ι → Except ε σ} {C : σ → ι → Prop}
    [∀ s e, Decidable (C s e)] : ∀ s events, Decidable (Meets step C s events)
  | _, [] => .isTrue trivial
  | s, e :: events =>
    match h : step s e with
    | .error _ => decidable_of_iff (C s e) ⟨fun hc => ⟨hc, fun _ hs => nomatch h.symm.trans hs⟩,
        And.left⟩
    | .ok s' =>
      have : Decidable (Meets step C s' events) := Meets.decidable s' events
      decidable_of_iff (C s e ∧ Meets step C s' events)
        ⟨fun hc => ⟨hc.1, fun _ hs => Except.ok.inj (h.symm.trans hs) ▸ hc.2⟩,
          fun hc => ⟨hc.1, hc.2 s' h⟩⟩

/-- What every step that meets the condition keeps, a run that meets it keeps. -/
theorem Meets.ends (hstep : ∀ s e, I s → C s e → Ends E I (step s e)) (hC : Meets step C s events)
    (hs : I s) : Ends E I (run step s events) := by
  induction events generalizing s with
  | nil => exact hs
  | cons e events ih =>
    obtain ⟨he, hrest⟩ := hC
    have hone := hstep s e hs he
    rw [run, foldlM_cons]
    cases hse : step s e with
    | error p =>
      rw [hse] at hone
      exact hone
    | ok s' =>
      rw [hse] at hone
      exact ih (hrest s' hse) hone

theorem Meets.imp (h : ∀ s e, C s e → D s e) (hC : Meets step C s events) :
    Meets step D s events := by
  induction events generalizing s with
  | nil => exact trivial
  | cons e events ih => exact ⟨h s e hC.1, fun s' hs' => ih (hC.2 s' hs')⟩

/-- A run that meets a condition meets what follows from it and from an invariant it keeps. -/
theorem Meets.imp_of_keeps (hkeep : ∀ s e, I s → C s e → Gives I (step s e))
    (h : ∀ s e, I s → C s e → D s e) (hs : I s) (hC : Meets step C s events) :
    Meets step D s events := by
  induction events generalizing s with
  | nil => exact trivial
  | cons e events ih =>
    refine ⟨h s e hs hC.1, fun s' hs' => ih ?_ (hC.2 s' hs')⟩
    have hone := hkeep s e hs hC.1
    rw [hs'] at hone
    exact hone

theorem Meets.of_forall (h : ∀ s e, C s e) (events : List ι) : Meets step C s events := by
  induction events generalizing s with
  | nil => exact trivial
  | cons e events ih => exact ⟨h s e, fun _ _ => ih⟩

end ReliableBT
