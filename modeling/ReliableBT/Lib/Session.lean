import Mathlib

/-!
# Two processes that talk over a byte channel

A process sends byte strings and reads with buffers. A read may return any part of what has
arrived, so a protocol is right only if it is so for every fragmentation of its reads and, for two
processes, for every interleaving.

A *script* says in which order one process sends which strings and reads which bytes. `Follows p s
r` says that `p` keeps to the script `s` and ends with `r`, whatever the fragmentation; in
particular no read asks for more bytes than the script has before the next thing it sends. Two
scripts are `Joint` when some interleaving of them comes to its end with nothing left on the way.

* `Follows.bind`: scripts of the parts of a process are put together.
* `Follows.runs_eq`: a process on its own, given the bytes of its script, ends as the script says.
* `Ready`, `Ready.send`, `Ready.recv`: if one interleaving comes to its end then so does every one,
  for each step of either process leads to a pair that is `Ready` again;
* `Ready.progress`: and one of the two can go on as long as one of them has not ended.
-/

open List Nat

namespace ReliableBT.Session

/-- A process at one end of a connection: it ends, or sends bytes, or reads with a buffer of `n`
bytes, to which the connection gives no bytes only if there are no more. -/
inductive Proc (α : Type) where
  | ret (a : α)
  | send (bs : List UInt8) (k : Proc α)
  | recv (n : ℕ) (k : List UInt8 → Proc α)

variable {α β : Type}

/-- One process, then the other. -/
def Proc.bind : Proc α → (α → Proc β) → Proc β
  | .ret a, f => f a
  | .send bs k, f => .send bs (k.bind f)
  | .recv n k, f => .recv n fun bs => (k bs).bind f

/-! ## A process on its own -/

/-- A read with a buffer of `n` bytes may return the first `m` of the bytes `w`. -/
def Delivers (n : ℕ) (w : List UInt8) (m : ℕ) : Prop :=
  m ≤ n ∧ m ≤ w.length ∧ (m = 0 → n = 0 ∨ w = [])

/-- `Runs p w a rest`: in some fragmentation of its reads, the process that is given the bytes `w`
and then the end of the stream ends with `a` and has not read `rest`. -/
def Runs : Proc α → List UInt8 → α → List UInt8 → Prop
  | .ret b, w, a, rest => b = a ∧ w = rest
  | .send _ k, w, a, rest => Runs k w a rest
  | .recv n k, w, a, rest => ∃ m, Delivers n w m ∧ Runs (k (w.take m)) (w.drop m) a rest

theorem exists_runs (p : Proc α) (w : List UInt8) : ∃ a rest, Runs p w a rest := by
  induction p generalizing w with
  | ret a => exact ⟨a, w, rfl, rfl⟩
  | send bs k ih => exact ih w
  | recv n k ih =>
    obtain ⟨a, rest, h⟩ := ih (w.take (min n w.length)) (w.drop (min n w.length))
    refine ⟨a, rest, min n w.length, ⟨min_le_left _ _, min_le_right _ _, ?_⟩, h⟩
    intro h0
    rcases le_total n w.length with hn | hn
    · exact .inl (by omega)
    · exact .inr (eq_nil_of_length_eq_zero (by omega))

variable {p : Proc α} {f : α → Proc β} {w rest : List UInt8} {s : List Event} {a : α}
  {bs : List UInt8} {r : α}

theorem runs_bind {b : β} :
    Runs (p.bind f) w b rest ↔ ∃ a mid, Runs p w a mid ∧ Runs (f a) mid b rest := by
  induction p generalizing w with
  | ret a =>
    constructor
    · exact fun h => ⟨a, w, ⟨rfl, rfl⟩, h⟩
    · rintro ⟨_, _, ⟨rfl, rfl⟩, h⟩
      exact h
  | send bs k ih => exact ih
  | recv n k ih =>
    constructor
    · rintro ⟨m, hm, h⟩
      obtain ⟨a, mid, ha, hb⟩ := (ih _).mp h
      exact ⟨a, mid, ⟨m, hm, ha⟩, hb⟩
    · rintro ⟨a, mid, ⟨m, hm, ha⟩, hb⟩
      exact ⟨m, hm, (ih _).mpr ⟨a, mid, ha, hb⟩⟩

/-! ## Scripts -/

/-- What happens at one end of a connection: a string is sent, or a byte is read. -/
inductive Event where
  | out (bs : List UInt8)
  | inp (b : UInt8)

/-- The events of reading a string. -/
def inps (bs : List UInt8) : List Event := bs.map .inp

@[simp] theorem inps_nil : inps [] = [] := rfl

@[simp] theorem inps_cons (b : UInt8) (bs : List UInt8) : inps (b :: bs) = .inp b :: inps bs := rfl

@[simp] theorem inps_append (bs cs : List UInt8) : inps (bs ++ cs) = inps bs ++ inps cs :=
  map_append

@[simp] theorem length_inps (bs : List UInt8) : (inps bs).length = bs.length := length_map ..

/-- The bytes that a script reads. -/
def reads : List Event → List UInt8
  | [] => []
  | .out _ :: s => reads s
  | .inp b :: s => b :: reads s

/-- The bytes that a script sends. -/
def sends : List Event → List UInt8
  | [] => []
  | .out bs :: s => bs ++ sends s
  | .inp _ :: s => sends s

@[simp] theorem reads_inps_append (bs : List UInt8) (s : List Event) :
    reads (inps bs ++ s) = bs ++ reads s := by
  induction bs with
  | nil => rfl
  | cons b bs ih => simp [reads, ih]

@[simp] theorem sends_inps_append (bs : List UInt8) (s : List Event) :
    sends (inps bs ++ s) = sends s := by
  induction bs with
  | nil => rfl
  | cons b bs ih => simp [sends, ih]

@[simp] theorem sends_inps (bs : List UInt8) : sends (inps bs) = [] := by
  rw [← append_nil (inps bs), sends_inps_append, sends]

/-- The process keeps to the script and ends with `r`. -/
def Follows : Proc α → List Event → α → Prop
  | .ret a, s, r => s = [] ∧ a = r
  | .send bs k, s, r => ∃ s', s = .out bs :: s' ∧ Follows k s' r
  | .recv n k, s, r => 0 < n ∧ ∃ bs s', bs.length = n ∧ s = inps bs ++ s' ∧
      ∀ m, 0 < m → m ≤ n → Follows (k (bs.take m)) (inps (bs.drop m) ++ s') r

theorem Follows.bind {t : List Event} {r : β} (hp : Follows p s a) (hf : Follows (f a) t r) :
    Follows (p.bind f) (s ++ t) r := by
  induction p generalizing s with
  | ret b =>
    obtain ⟨rfl, rfl⟩ := hp
    exact hf
  | send bs k ih =>
    obtain ⟨s', rfl, hk⟩ := hp
    exact ⟨s' ++ t, rfl, ih hk⟩
  | recv n k ih =>
    obtain ⟨hn, bs, s', hbs, rfl, hk⟩ := hp
    refine ⟨hn, bs, s' ++ t, hbs, append_assoc .., fun m h0 hm => ?_⟩
    rw [← append_assoc]
    exact ih _ (hk m h0 hm)

/-- A read of the next bytes of the script, where any part of them may come first. -/
theorem Follows.recv {n : ℕ} {k : List UInt8 → Proc α} (hn : 0 < n) (hbs : n ≤ bs.length)
    (hk : ∀ m, 0 < m → m ≤ n → Follows (k (bs.take m)) (inps (bs.drop m) ++ s) r) :
    Follows (.recv n k) (inps bs ++ s) r := by
  refine ⟨hn, bs.take n, inps (bs.drop n) ++ s, length_take_of_le hbs, ?_, fun m h0 hm => ?_⟩
  · rw [← append_assoc, ← inps_append, take_append_drop]
  · have hdrop : (bs.take n).drop m ++ bs.drop n = bs.drop m := by
      rw [← drop_append_of_le_length (by simp; omega), take_append_drop]
    rw [take_take, min_eq_left hm, ← append_assoc, ← inps_append, hdrop]
    exact hk m h0 hm

/-- On its own, with the bytes of its script, a process can only end as the script says. -/
theorem Follows.runs_eq {rest' : List UInt8} (h : Follows p s r)
    (hr : Runs p (reads s ++ rest) a rest') : a = r ∧ rest' = rest := by
  induction p generalizing s with
  | ret b =>
    obtain ⟨rfl, rfl⟩ := h
    exact ⟨hr.1.symm, hr.2.symm⟩
  | send bs k ih =>
    obtain ⟨s', rfl, hk⟩ := h
    exact ih hk hr
  | recv n k ih =>
    obtain ⟨hn, bs, s', hbs, rfl, hk⟩ := h
    obtain ⟨m, ⟨hmn, -, hm0⟩, hr⟩ := hr
    have hne : bs ≠ [] := by rintro rfl; simp at hbs; omega
    have hpos : 0 < m := by
      rcases Nat.eq_zero_or_pos m with h0 | h0
      · rcases hm0 h0 with h0 | h0
        · omega
        · simp [hne] at h0
      · exact h0
    apply ih _ (hk m hpos hmn)
    rw [reads_inps_append, append_assoc]
    rwa [reads_inps_append, append_assoc, take_append_of_le_length (by omega),
      drop_append_of_le_length (by omega)] at hr

/-! ## Two scripts -/

/-- Some interleaving of the two scripts comes to its end, where `p` is on the way to the first
process and `q` to the second one. -/
inductive Joint : List Event → List Event → List UInt8 → List UInt8 → Prop
  | done : Joint [] [] [] []
  | outL {bs s t p q} : Joint s t p (q ++ bs) → Joint (.out bs :: s) t p q
  | outR {bs s t p q} : Joint s t (p ++ bs) q → Joint s (.out bs :: t) p q
  | inpL {b s t p q} : Joint s t p q → Joint (.inp b :: s) t (b :: p) q
  | inpR {b s t p q} : Joint s t p q → Joint s (.inp b :: t) p (b :: q)

namespace Joint

variable {s t : List Event} {p q bs : List UInt8} {b : UInt8}

theorem symm (h : Joint s t p q) : Joint t s q p := by
  induction h with
  | done => exact done
  | outL _ ih => exact outR ih
  | outR _ ih => exact outL ih
  | inpL _ ih => exact inpR ih
  | inpR _ ih => exact inpL ih

theorem inpsL (h : Joint s t p q) : Joint (inps bs ++ s) t (bs ++ p) q := by
  induction bs with
  | nil => exact h
  | cons b bs ih => exact inpL ih

theorem inpsR (h : Joint s t p q) : Joint s (inps bs ++ t) p (bs ++ q) := h.symm.inpsL.symm

theorem out (h : Joint (.out bs :: s) t p q) : Joint s t p (q ++ bs) := by
  generalize hs : Event.out bs :: s = s' at h
  induction h with
  | done => cases hs
  | outL h _ =>
    cases hs
    exact h
  | outR _ ih => exact outR (ih hs)
  | inpL _ _ => cases hs
  | inpR _ ih => exact inpR (ih hs)

theorem inp (h : Joint (.inp b :: s) t p q) (hp : p ≠ []) : ∃ p', p = b :: p' ∧ Joint s t p' q := by
  generalize hs : Event.inp b :: s = s' at h
  induction h with
  | done => cases hs
  | outL _ _ => cases hs
  | @outR bs s t p q _ ih =>
    obtain ⟨c, p, rfl⟩ := exists_cons_of_ne_nil hp
    obtain ⟨p', he, h'⟩ := ih (by simp) hs
    obtain ⟨rfl, rfl⟩ := cons.inj he
    exact ⟨p, rfl, outR h'⟩
  | inpL h _ =>
    cases hs
    exact ⟨_, rfl, h⟩
  | inpR _ ih =>
    obtain ⟨p', he, h'⟩ := ih hp hs
    exact ⟨p', he, inpR h'⟩

theorem inps (h : Joint (Session.inps bs ++ s) t p q) (hp : bs.length ≤ p.length) :
    ∃ p', p = bs ++ p' ∧ Joint s t p' q := by
  induction bs generalizing p with
  | nil => exact ⟨p, rfl, h⟩
  | cons b bs ih =>
    obtain ⟨p, rfl, hbs⟩ := inp h (by rintro rfl; simp at hp)
    obtain ⟨p', rfl, hs⟩ := ih hbs (by simpa using hp)
    exact ⟨p', rfl, hs⟩

/-- If the first process has ended then nothing is on the way to it, and all that the second one
reads is on the way. -/
theorem nil_left (h : Joint [] t p q) : p = [] ∧ q = reads t := by
  generalize hs : ([] : List Event) = s at h
  induction h with
  | done => exact ⟨rfl, rfl⟩
  | outL _ _ => cases hs
  | outR _ ih =>
    obtain ⟨hp, hq⟩ := ih hs
    exact ⟨(append_eq_nil_iff.mp hp).1, hq⟩
  | inpL _ _ => cases hs
  | inpR _ ih =>
    obtain ⟨hp, rfl⟩ := ih hs
    exact ⟨hp, rfl⟩

end Joint

/-! ## Two processes -/

/-- The two processes, with `inP` and `inQ` on the way to them, keep to joint scripts with at most
`n` events and end with `r` and `r'`. -/
def Ready (n : ℕ) (p : Proc α) (q : Proc β) (inP inQ : List UInt8) (r : α) (r' : β) : Prop :=
  ∃ s t, Follows p s r ∧ Follows q t r' ∧ Joint s t inP inQ ∧ s.length + t.length ≤ n

/-- The process can take a step, with `w` on the way to it. -/
def CanStep (w : List UInt8) : Proc α → Prop
  | .ret _ => False
  | .send _ _ => True
  | .recv n _ => 0 < n ∧ w ≠ []

theorem Follows.canStep_out (h : Follows p (.out bs :: s) r) : CanStep w p := by
  cases p with
  | ret a => cases h.1
  | send cs k => trivial
  | recv n k =>
    obtain ⟨hn, _ | ⟨b, cs⟩, s', rfl, hs, -⟩ := h
    · cases hn
    · cases hs

theorem Follows.canStep_inp {b : UInt8} (h : Follows p (.inp b :: s) r) (hw : w ≠ []) :
    CanStep w p := by
  cases p with
  | ret a => cases h.1
  | send cs k => trivial
  | recv n k => exact ⟨h.1, hw⟩

theorem Follows.eq_ret (h : Follows p [] r) : p = .ret r := by
  cases p with
  | ret a => rw [h.2]
  | send bs k =>
    obtain ⟨s', hs, -⟩ := h
    cases hs
  | recv n k =>
    obtain ⟨hn, bs, s', rfl, hs, -⟩ := h
    obtain ⟨hbs, -⟩ := append_eq_nil_iff.mp hs.symm
    have := length_inps bs
    simp [hbs] at this
    omega

namespace Ready

variable {n m k : ℕ} {p : Proc α} {q : Proc β} {inP inQ bs : List UInt8} {r a : α} {r' : β}
  {f : List UInt8 → Proc α}

theorem symm (h : Ready n p q inP inQ r r') : Ready n q p inQ inP r' r := by
  obtain ⟨s, t, hp, hq, hj, hn⟩ := h
  exact ⟨t, s, hq, hp, hj.symm, by omega⟩

theorem send (h : Ready n (.send bs p) q inP inQ r r') :
    ∃ n' < n, Ready n' p q inP (inQ ++ bs) r r' := by
  obtain ⟨_, t, ⟨s, rfl, hp⟩, hq, hj, hn⟩ := h
  simp only [length_cons] at hn
  exact ⟨s.length + t.length, by omega, s, t, hp, hq, hj.out, le_refl _⟩

theorem recv (h : Ready n (.recv k f) q inP inQ r r') (h0 : 0 < m) (hm : m ≤ k)
    (hin : m ≤ inP.length) : ∃ n' < n, Ready n' (f (inP.take m)) q (inP.drop m) inQ r r' := by
  obtain ⟨_, t, ⟨-, bs, s, rfl, rfl, hf⟩, hq, hj, hn⟩ := h
  have hlen : (bs.take m).length = m := length_take_of_le hm
  have hsplit : inps bs ++ s = inps (bs.take m) ++ (inps (bs.drop m) ++ s) := by
    rw [← append_assoc, ← inps_append, take_append_drop]
  rw [hsplit] at hj hn
  obtain ⟨p', rfl, hj'⟩ := hj.inps (by omega)
  rw [take_append_of_le_length (by omega), take_of_length_le (by omega),
    drop_append_of_le_length (by omega), drop_of_length_le (by omega)]
  rw [length_append, length_inps, hlen] at hn
  exact ⟨(inps (bs.drop m) ++ s).length + t.length, by omega, _, t, hf m h0 hm, hq, hj',
    le_refl _⟩

theorem ret_left (h : Ready n (.ret a) q inP inQ r r') : a = r ∧ inP = [] := by
  obtain ⟨_, t, ⟨rfl, rfl⟩, -, hj, -⟩ := h
  exact ⟨rfl, hj.nil_left.1⟩

theorem ret_congr (h : Ready n (.ret a) q inP inQ r r') (b : α) :
    Ready n (.ret b) q inP inQ b r' := by
  obtain ⟨s, t, ⟨hs, -⟩, hq, hj, hn⟩ := h
  exact ⟨s, t, ⟨hs, rfl⟩, hq, hj, hn⟩

/-- Once the other process has ended, all that a read asks for is there. -/
theorem recv_ret {b : β} (h : Ready n (.recv k f) (.ret b) inP inQ r r') : k ≤ inP.length := by
  obtain ⟨_, t, ⟨-, bs, s, rfl, rfl, -⟩, ⟨rfl, -⟩, hj, -⟩ := h
  rw [hj.symm.nil_left.2, reads_inps_append]
  simp

theorem progress (h : Ready n p q inP inQ r r') :
    (p = .ret r ∧ q = .ret r') ∨ CanStep inP p ∨ CanStep inQ q := by
  obtain ⟨s, t, hp, hq, hj, -⟩ := h
  cases hj with
  | done => exact .inl ⟨hp.eq_ret, hq.eq_ret⟩
  | outL _ => exact .inr (.inl hp.canStep_out)
  | outR _ => exact .inr (.inr hq.canStep_out)
  | inpL _ => exact .inr (.inl (hp.canStep_inp (by simp)))
  | inpR _ => exact .inr (.inr (hq.canStep_inp (by simp)))

end Ready

end ReliableBT.Session
