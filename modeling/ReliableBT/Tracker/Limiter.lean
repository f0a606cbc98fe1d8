import ReliableBT.Lib.Outcome

/-!
# Announces to one tracker at a time (`internal/limiter/limiter.go`, `tracker_scraper.go`)

`Instance.active` has an entry for each key in use: a channel with `SlotsPerKey` places, and the
number of references to it. A user gets a reference, sends to the channel to take a slot or gives
up, receives from it to free the slot, and drops the reference. The last reference takes the entry
out of the map, and the next user of the key makes another; a user works with the entry that its
reference points to, whether or not that is still the one in the map. A pointer to an entry is its
key with a number.

A user is where it is in `trackerScraper.announce`, and a run is any sequence of steps of any users.
The steps under the mutex, the send and the receive are one step each.

* `Tracked.move`: what a step of one user does to the counts.
* `slots_limited`: no key has more users with a slot than `SlotsPerKey`, and no receive blocks.
-/

open Function List Option Prod

namespace ReliableBT.Limiter

variable {κ : Type} [DecidableEq κ]

/-- `activeValueType`: the number of elements in the channel, and of references. -/
structure ActiveValue where
  ch : Nat := 0
  refs : Nat := 0

/-- Where a user is in `announce`, with the entry its `ActiveValueRef` points to. -/
inductive Phase (κ : Type) where
  | idle
  /-- in the `select` with the send -/
  | waiting (ref : κ × Nat)
  /-- has a slot -/
  | holding (ref : κ × Nat)
  /-- has still to drop the reference -/
  | leaving (ref : κ × Nat)

/-- `Instance`, with the memory its entries are in, and its users. -/
structure State (κ : Type) where
  active : κ → Option Nat := fun _ => none
  heap : κ × Nat → ActiveValue := fun _ => {}
  /-- the number of the next entry -/
  next : Nat := 0
  users : List (Phase κ)

/-- What `GetRef` does if there is no entry. -/
def State.ensure (s : State κ) (key : κ) : State κ × Nat :=
  match s.active key with
  | some v => (s, v)
  | none =>
    ({ s with
      active := update s.active key (some s.next)
      heap := update s.heap (key, s.next) {}
      next := s.next + 1 }, s.next)

/-- User `i` goes on, and an entry changes. -/
def State.put (s : State κ) (i : Nat) (p : Phase κ) (ref : κ × Nat) (value : ActiveValue) :
    State κ :=
  { s with users := s.users.set i p, heap := update s.heap ref value }

/-- A step of a user. -/
inductive Event (κ : Type) where
  | getRef (i : Nat) (key : κ)
  | send (i : Nat)
  /-- the context is done -/
  | giveUp (i : Nat)
  | receive (i : Nat)
  | drop (i : Nat)

/-- The panic of `announce`. -/
inductive Panic where
  /-- `should return immediately` -/
  | shouldReturnImmediately

/-- What a step does. A user that is elsewhere does nothing, and neither does a send to a full
channel. -/
def step (slotsPerKey : Nat) (s : State κ) : Event κ → Except Panic (State κ)
  | .getRef i key =>
    match s.users[i]? with
    | some .idle =>
      let (s, v) := s.ensure key
      let value := s.heap (key, v)
      .ok (s.put i (.waiting (key, v)) (key, v) { value with refs := value.refs + 1 })
    | _ => .ok s
  | .send i =>
    match s.users[i]? with
    | some (.waiting ref) =>
      let value := s.heap ref
      if value.ch < slotsPerKey then
        .ok (s.put i (.holding ref) ref { value with ch := value.ch + 1 })
      else .ok s
    | _ => .ok s
  | .giveUp i =>
    match s.users[i]? with
    | some (.waiting ref) => .ok (s.put i (.leaving ref) ref (s.heap ref))
    | _ => .ok s
  | .receive i =>
    match s.users[i]? with
    | some (.holding ref) =>
      let value := s.heap ref
      if value.ch = 0 then .error .shouldReturnImmediately
      else .ok (s.put i (.leaving ref) ref { value with ch := value.ch - 1 })
    | _ => .ok s
  | .drop i =>
    match s.users[i]? with
    | some (.leaving ref) =>
      let refs := (s.heap ref).refs - 1
      let s := s.put i .idle ref { s.heap ref with refs }
      .ok (if refs = 0 then { s with active := update s.active ref.1 none } else s)
    | _ => .ok s

/-! ## Counting users -/

/-- The reference a user has. -/
def Phase.ref : Phase κ → Option (κ × Nat)
  | .idle => none
  | .waiting ref | .holding ref | .leaving ref => some ref

/-- The reference of a user with a slot. -/
def Phase.slot : Phase κ → Option (κ × Nat)
  | .holding ref => some ref
  | _ => none

/-- The users that have this by `f`. -/
def count (f : Phase κ → Option (κ × Nat)) (users : List (Phase κ)) (ref : κ × Nat) : Nat :=
  users.countP fun p => decide (f p = some ref)

/-- The entries are those that users have references to, and their numbers count the users. -/
structure Tracked (slotsPerKey : Nat) (s : State κ) : Prop where
  listed : ∀ p ∈ s.users, ∀ ref ∈ p.ref, s.active ref.1 = some ref.2
  refs : ∀ ref : κ × Nat, s.active ref.1 = some ref.2 →
    (s.heap ref).refs = count Phase.ref s.users ref
  slots : ∀ ref : κ × Nat, s.active ref.1 = some ref.2 →
    (s.heap ref).ch = count Phase.slot s.users ref ∧ (s.heap ref).ch ≤ slotsPerKey

variable {n i : Nat} {s : State κ} {p : Phase κ} {ref : κ × Nat} {f : Phase κ → Option (κ × Nat)}
  {users : List (Phase κ)}

theorem count_pos (hi : users[i]? = some p) (hp : f p = some ref) : 0 < count f users ref :=
  countP_pos_iff.mpr ⟨p, mem_of_getElem? hi, decide_eq_true hp⟩

theorem count_set (f : Phase κ → Option (κ × Nat)) (p' : Phase κ) (ref : κ × Nat)
    (hi : users[i]? = some p) :
    count f (users.set i p') ref + (if f p = some ref then 1 else 0) =
      count f users ref + if f p' = some ref then 1 else 0 := by
  obtain ⟨hlt, rfl⟩ := List.getElem?_eq_some_iff.mp hi
  have hset := List.countP_set (p := fun q => decide (f q = some ref)) (a := p') hlt
  simp only [decide_eq_true_eq] at hset
  rw [count, hset]
  split
  · next hp =>
    have hpos := count_pos hi hp
    rw [count] at hpos ⊢
    omega
  · rfl

omit [DecidableEq κ] in
theorem Phase.ref_of_slot (h : p.slot = some ref) : p.ref = some ref := by
  cases p with
  | holding _ => exact h
  | _ => exact nomatch h

theorem Tracked.move (h : Tracked n s) (hi : s.users[i]? = some p)
    (hactive : s.active ref.1 = some ref.2) {p' : Phase κ} {value : ActiveValue}
    (hp : ∀ r, p.ref = some r → r = ref) (hp' : ∀ r, p'.ref = some r → r = ref)
    (hrefs : value.refs + (if p.ref = some ref then 1 else 0) =
      (s.heap ref).refs + if p'.ref = some ref then 1 else 0)
    (hch : value.ch + (if p.slot = some ref then 1 else 0) =
      (s.heap ref).ch + if p'.slot = some ref then 1 else 0)
    (hlimit : value.ch ≤ n) : Tracked n (s.put i p' ref value) := by
  -- one number of the entry, and what it counts; nothing changes for the other references
  have hcount : ∀ {f : Phase κ → Option (κ × Nat)} (g : ActiveValue → Nat),
      (∀ q r, f q = some r → q.ref = some r) →
      g value + (if f p = some ref then 1 else 0) =
        g (s.heap ref) + (if f p' = some ref then 1 else 0) →
      ∀ {r : κ × Nat}, g (s.heap r) = count f s.users r →
        g (update s.heap ref value r) = count f (s.users.set i p') r := by
    intro f g hf hg r hold
    have hset := count_set f p' r hi
    by_cases hne : r = ref
    · subst hne
      rw [update_self]
      omega
    · rw [if_neg fun hr => hne (hp r (hf p r hr)),
        if_neg fun hr => hne (hp' r (hf p' r hr))] at hset
      rw [update_of_ne hne, hold]
      exact hset.symm
  refine ⟨fun q hq r hr => ?_, fun r hr => hcount ActiveValue.refs (fun _ _ => id) hrefs
    (h.refs r hr), fun r hr => ⟨hcount ActiveValue.ch (fun _ _ => Phase.ref_of_slot) hch
      (h.slots r hr).1, ?_⟩⟩
  · rcases mem_or_eq_of_mem_set hq with hq | rfl
    · exact h.listed q hq r hr
    · exact hp' r hr ▸ hactive
  · change (update s.heap ref value r).ch ≤ n
    by_cases hne : r = ref
    · rwa [hne, update_self]
    · rw [update_of_ne hne]
      exact (h.slots r hr).2

theorem Tracked.ensure (h : Tracked n s) (key : κ) :
    Tracked n (s.ensure key).1 ∧ (s.ensure key).1.active key = some (s.ensure key).2 ∧
      (s.ensure key).1.users = s.users := by
  unfold State.ensure
  split
  · next v hv => exact ⟨h, hv, rfl⟩
  next hnone =>
  have hkey : ∀ p ∈ s.users, ∀ r, p.ref = some r → r.1 ≠ key := by
    rintro p hp r hr rfl
    exact nomatch hnone.symm.trans (h.listed p hp r hr)
  have hfresh : ∀ {f}, (∀ p r, f p = some r → p.ref = some r) →
      ∀ v, count f s.users (key, v) = 0 := fun hf v => countP_eq_zero.mpr fun p hp hr =>
    hkey p hp (key, v) (hf p _ (of_decide_eq_true hr)) rfl
  -- an entry is the new one, or one of another key
  have hcases : ∀ r : κ × Nat, update s.active key (some s.next) r.1 = some r.2 →
      r = (key, s.next) ∨ r ≠ (key, s.next) ∧ s.active r.1 = some r.2 := by
    rintro ⟨key', v⟩ hr
    by_cases heq : key' = key
    · rw [heq, update_self, some.injEq] at hr
      exact .inl (by rw [heq, hr])
    · rw [update_of_ne heq] at hr
      exact .inr ⟨fun h => heq (congrArg fst h), hr⟩
  refine ⟨⟨fun p hp r hr => ?_, fun r hr => ?_, fun r hr => ?_⟩, update_self .., rfl⟩
  · exact (update_of_ne (hkey p hp r hr) ..).trans (h.listed p hp r hr)
  · change (update s.heap (key, s.next) {} r).refs = _
    rcases hcases r hr with rfl | ⟨hne, hr⟩
    · rw [update_self, hfresh fun _ _ => id]
    · rw [update_of_ne hne]
      exact h.refs r hr
  · change (update s.heap (key, s.next) {} r).ch = _ ∧ (update s.heap (key, s.next) {} r).ch ≤ n
    rcases hcases r hr with rfl | ⟨hne, hr⟩
    · rw [update_self, hfresh fun _ _ => Phase.ref_of_slot]
      exact ⟨rfl, Nat.zero_le n⟩
    · rw [update_of_ne hne]
      exact h.slots r hr

theorem Tracked.forget (h : Tracked n s) (hactive : s.active ref.1 = some ref.2)
    (hzero : (s.heap ref).refs = 0) :
    Tracked n { s with active := update s.active ref.1 none } := by
  have hother : ∀ r : κ × Nat, update s.active ref.1 none r.1 = some r.2 →
      s.active r.1 = some r.2 := by
    intro r hr
    by_cases heq : r.1 = ref.1
    · rw [heq, update_self] at hr
      exact nomatch hr
    · rwa [update_of_ne heq] at hr
  refine ⟨fun p hp r hr => ?_, fun r hr => h.refs r (hother r hr), fun r hr =>
    h.slots r (hother r hr)⟩
  have hlisted := h.listed p hp r hr
  have hne : r.1 ≠ ref.1 := by
    intro heq
    obtain rfl : r = ref := Prod.ext heq (some.inj (hlisted.symm.trans (heq ▸ hactive)))
    rw [h.refs r hactive] at hzero
    exact countP_eq_zero.mp hzero p hp (decide_eq_true hr)
  exact (update_of_ne hne ..).trans hlisted

theorem Tracked.step (h : Tracked n s) (e : Event κ) : Reaches (Tracked n) (step n s e) := by
  have hlisted : ∀ {i : Nat} {p : Phase κ} {ref : κ × Nat}, s.users[i]? = some p →
      p.ref = some ref → s.active ref.1 = some ref.2 :=
    fun hi href => h.listed _ (mem_of_getElem? hi) _ href
  have hsome : ∀ {ref r : κ × Nat}, some ref = some r → r = ref := fun h => (some.inj h).symm
  cases e with
  | getRef i key =>
    rw [Limiter.step]
    split
    · next hi =>
      have hensure := h.ensure key
      generalize s.ensure key = x at hensure ⊢
      obtain ⟨s', v⟩ := x
      obtain ⟨h', hactive, husers⟩ := hensure
      rw [← husers] at hi
      refine h'.move hi hactive nofun (fun _ => hsome) ?_ rfl (h'.slots _ hactive).2
      simp [Phase.ref]
    · exact h
  | send i =>
    rw [Limiter.step]
    split
    · next ref hi =>
      dsimp only
      split
      · next hroom =>
        refine h.move hi (hlisted hi rfl) (fun _ => hsome) (fun _ => hsome) rfl ?_ hroom
        simp [Phase.slot]
      · exact h
    · exact h
  | giveUp i =>
    rw [Limiter.step]
    split
    · next ref hi =>
      exact h.move hi (hlisted hi rfl) (fun _ => hsome) (fun _ => hsome) rfl rfl
        (h.slots ref (hlisted hi rfl)).2
    · exact h
  | receive i =>
    rw [Limiter.step]
    split
    · next ref hi =>
      obtain ⟨hcount, hlimit⟩ := h.slots ref (hlisted hi rfl)
      have hpos : 0 < (s.heap ref).ch := hcount ▸ count_pos hi rfl
      dsimp only
      rw [if_neg hpos.ne']
      refine h.move hi (hlisted hi rfl) (fun _ => hsome) (fun _ => hsome) rfl ?_ (by simp; omega)
      simp [Phase.slot]
      omega
    · exact h
  | drop i =>
    rw [Limiter.step]
    split
    · next ref hi =>
      have hpos : 0 < (s.heap ref).refs := h.refs ref (hlisted hi rfl) ▸ count_pos hi rfl
      have hmove : Tracked n
          (s.put i .idle ref { s.heap ref with refs := (s.heap ref).refs - 1 }) := by
        refine h.move hi (hlisted hi rfl) (fun _ => hsome) nofun ?_ rfl
          (h.slots ref (hlisted hi rfl)).2
        simp [Phase.ref]
        omega
      dsimp only
      split
      · next hzero =>
        refine hmove.forget (hlisted hi rfl) ?_
        exact (congrArg ActiveValue.refs (update_self ..)).trans hzero
      · exact hmove
    · exact h

/-- **A limit for each key**: whatever the users do, at most `slotsPerKey` of them have a slot of
the same key, and none panics because its receive would block. -/
theorem slots_limited (slotsPerKey users : Nat) (events : List (Event κ)) :
    Reaches (fun s => ∀ key,
        (s.users.countP fun p => decide (p.slot.map fst = some key)) ≤ slotsPerKey)
      (run (step slotsPerKey) { users := replicate users .idle } events) := by
  have hinit : Tracked slotsPerKey ({ users := replicate users .idle } : State κ) := by
    refine ⟨fun p hp r hr => ?_, fun _ h => (nomatch h), fun _ h => (nomatch h)⟩
    rw [eq_of_mem_replicate hp] at hr
    exact nomatch hr
  refine (Meets.ends (C := fun _ _ => True) (fun s e h _ => h.step e)
    (Meets.of_forall (fun _ _ => trivial) events) hinit).imp fun s h key => ?_
  -- the users with a slot of the key share the entry of the key
  have hentry : ∀ p ∈ s.users, p.slot.map fst = some key →
      ∃ v, s.active key = some v ∧ p.slot = some (key, v) := by
    intro p hp hslot
    obtain ⟨⟨key', v⟩, hv, rfl⟩ := map_eq_some_iff.mp hslot
    exact ⟨v, h.listed p hp _ (Phase.ref_of_slot hv), hv⟩
  cases hactive : s.active key with
  | none =>
    refine (countP_eq_zero.mpr fun p hp hslot => ?_).trans_le (Nat.zero_le _)
    obtain ⟨v, hv, -⟩ := hentry p hp (of_decide_eq_true hslot)
    exact nomatch hactive.symm.trans hv
  | some v =>
    obtain ⟨hcount, hlimit⟩ := h.slots (key, v) hactive
    refine (countP_mono_left fun p hp hslot => ?_).trans (hcount ▸ hlimit)
    obtain ⟨v', hv', heq⟩ := hentry p hp (of_decide_eq_true hslot)
    rw [decide_eq_true_eq, heq, ← some.inj (hactive.symm.trans hv')]

end ReliableBT.Limiter
