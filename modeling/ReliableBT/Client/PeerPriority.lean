import ReliableBT.Lib.Ip
import ReliableBT.Lib.Bytes
import ReliableBT.Lib.Multiless
import ReliableBT.Lib.Outcome

/-!
# Peer priorities and worse connections (`bep40.go`, `worse-conns.go`)

`bep40Priority` hashes the masked addresses of two peers, the smaller one first, or their ports if
the addresses are equal. Addresses are byte strings of any length, a nil one is empty, and
`maskIP` follows `IP.Mask`; the hash is a parameter.

`worseConnInput.Less` compares two connections field by field. A peer priority that is not available
is passed over, so that it ties with every other; with available priorities on both sides of it the
relation can have a cycle. Times are numbers of nanoseconds whose differences do not overflow. What
`multiless` does is assumed, `LazySameLess` included; the version that the repository requires may
not do it.

* `bep40_symmetric`: the priority is the same from both sides.
* `worse_total`: `Less` is a strict total order **iff** there are no three connections in `Cyclic`
  position.
* `worse_cycle`: three such connections.
-/

namespace ReliableBT.PeerPriority

open Ip Bytes List UInt8

/-! ## Priorities -/

/-- `IpPort` -/
structure IpPort where
  ip : List UInt8
  port : UInt16

/-- `IP.Mask` -/
def maskIP (ip mask : List UInt8) : List UInt8 :=
  let mask :=
    if mask.length = 16 ∧ ip.length = 4 ∧ mask.take 12 = replicate 12 255 then mask.drop 12
    else mask
  let ip := if mask.length = 4 ∧ ip.length = 16 then (to4 ip).getD ip else ip
  if ip.length = mask.length then zipWith (· &&& ·) ip mask else []

/-- `CIDRMask`, for whole bytes -/
def cidrMask (ones bytes : ℕ) : List UInt8 :=
  replicate ones 255 ++ replicate (bytes - ones) 0

/-- `sameSubnet`, for whole bytes -/
def SameSubnet (ones bytes : ℕ) (a b : List UInt8) : Prop :=
  SameIP (maskIP a (cidrMask ones bytes)) (maskIP b (cidrMask ones bytes))

instance (ones bytes : ℕ) (a b : List UInt8) : Decidable (SameSubnet ones bytes a b) :=
  inferInstanceAs (Decidable (SameIP _ _))

/-- `ipv4Mask` -/
def ipv4Mask (a b : List UInt8) : List UInt8 :=
  if ¬ SameSubnet 2 4 a b then [255, 255, 0x55, 0x55]
  else if ¬ SameSubnet 3 4 a b then [255, 255, 255, 0x55]
  else [255, 255, 255, 255]

/-- `mask` -/
def mask (ones bytes : ℕ) : List UInt8 :=
  replicate ones 255 ++ replicate (bytes - ones) 0x55

/-- The panics of these functions. -/
inductive Panic where
  /-- the end of `ipv6Mask` -/
  | ipv6Mask
  /-- `cannot differentiate %#v and %#v` -/
  | cannotDifferentiate
  deriving DecidableEq

/-- `ipv6Mask` -/
def ipv6Mask (a b : List UInt8) : Except Panic (List UInt8) :=
  match (range' 6 11).find? fun i => decide (¬ SameSubnet i 16 a b) with
  | some i => .ok (mask i 16)
  | none => .error .ipv6Mask

/-- The end of `bep40PriorityBytes`; nothing for the error `incomparable IPs`. -/
def ipv6PriorityBytes (a b : List UInt8) : Except Panic (Option (List UInt8 × List UInt8)) :=
  match to16 a, to16 b with
  | some a6, some b6 => (ipv6Mask a b).map fun m => some (maskIP a6 m, maskIP b6 m)
  | _, _ => .ok none

/-- The two halves of `bep40PriorityBytes`. -/
def bep40PriorityBytes (a b : IpPort) : Except Panic (Option (List UInt8 × List UInt8)) :=
  if SameIP a.ip b.ip then .ok (some (putBE 2 a.port.toNat, putBE 2 b.port.toNat))
  else
    match to4 a.ip, to4 b.ip with
    | some a4, some b4 =>
      let m := ipv4Mask a.ip b.ip
      .ok (some (maskIP a4 m, maskIP b4 m))
    | _, _ => ipv6PriorityBytes a.ip b.ip

/-- `bytes.Compare(a, b) > 0` -/
def greater (a b : List UInt8) : Bool := decide (b.map toNat < a.map toNat)

/-- `bep40Priority`, with the checksum: nothing for the error. -/
def bep40Priority (checksum : List UInt8 → UInt32) (a b : IpPort) :
    Except Panic (Option UInt32) := do
  let bs ← bep40PriorityBytes a b
  return bs.map fun (a, b) => checksum (if greater a b then b ++ a else a ++ b)

variable {a b : List UInt8} {p q : IpPort}

theorem sameIP_comm : SameIP a b ↔ SameIP b a := by
  rw [SameIP, SameIP, eq_comm, or_comm (a := _ ∧ _)]

theorem sameSubnet_comm {ones bytes : ℕ} : SameSubnet ones bytes a b ↔ SameSubnet ones bytes b a :=
  sameIP_comm

theorem ipv4Mask_comm : ipv4Mask a b = ipv4Mask b a := by
  simp only [ipv4Mask, sameSubnet_comm (a := a)]

theorem ipv6Mask_comm : ipv6Mask a b = ipv6Mask b a := by
  simp only [ipv6Mask, sameSubnet_comm (a := a)]

theorem maskIP_full (h : (to16 a).isSome) : maskIP a (cidrMask 16 16) = a := by
  have hand : ∀ (n : ℕ) (l : List UInt8), l.length = n →
      zipWith (· &&& ·) l (replicate n 255) = l := by
    intro n l hl
    subst hl
    induction l with
    | nil => rfl
    | cons c l ih =>
      rw [length_cons, replicate_succ, zipWith_cons_cons, ih]
      exact congrArg (· :: l) and_neg_one
  have hlength : a.length = 4 ∨ a.length = 16 := by
    unfold to16 at h
    split_ifs at h with h4 h16
    · exact .inl h4
    · exact .inr h16
    · exact nomatch h
  rcases hlength with h4 | h16
  · simpa [maskIP, cidrMask, h4] using hand 4 a h4
  · simpa [maskIP, cidrMask, h16] using hand 16 a h16

theorem ipv6Mask_ends (hne : ¬ SameIP a b) (ha : (to16 a).isSome) (hb : (to16 b).isSome) :
    Reaches (fun _ => True) (ipv6Mask a b) := by
  unfold ipv6Mask
  split
  · trivial
  · next hnone =>
    have hlast := find?_eq_none.mp hnone 16 (by decide)
    simp only [decide_not, Bool.not_eq_true, Bool.not_eq_false', decide_eq_true_eq] at hlast
    rw [SameSubnet, maskIP_full ha, maskIP_full hb] at hlast
    exact hne hlast

theorem ipv6PriorityBytes_swap (hne : ¬ SameIP a b) :
    Reaches (fun bs => ipv6PriorityBytes b a = .ok (bs.map Prod.swap)) (ipv6PriorityBytes a b) := by
  unfold ipv6PriorityBytes
  cases ha : to16 a with
  | none => cases to16 b <;> rfl
  | some a6 =>
    cases hb : to16 b with
    | none => rfl
    | some b6 =>
      rw [ipv6Mask_comm (a := b)]
      refine (ipv6Mask_ends hne (by simp [ha]) (by simp [hb])).elim (fun _ h => h.elim) ?_
      exact fun _ _ => rfl

theorem bep40PriorityBytes_swap (p q : IpPort) :
    Reaches (fun bs => bep40PriorityBytes q p = .ok (bs.map Prod.swap))
      (bep40PriorityBytes p q) := by
  unfold bep40PriorityBytes
  by_cases hsame : SameIP p.ip q.ip
  · rw [if_pos hsame, if_pos (sameIP_comm.mp hsame)]
    rfl
  rw [if_neg hsame, if_neg fun h => hsame (sameIP_comm.mp h), ipv4Mask_comm (a := q.ip)]
  cases to4 p.ip with
  | none => cases to4 q.ip <;> exact ipv6PriorityBytes_swap hsame
  | some a4 =>
    cases to4 q.ip with
    | none => exact ipv6PriorityBytes_swap hsame
    | some b4 => rfl

theorem greater_swap {x y : List UInt8} :
    (if greater x y then y ++ x else x ++ y) = if greater y x then x ++ y else y ++ x := by
  unfold greater
  rcases lt_trichotomy (x.map toNat) (y.map toNat) with h | h | h
  · simp [h, h.asymm]
  · obtain rfl := map_injective_iff.mpr (fun _ _ => UInt8.toNat_inj.mp) h
    rfl
  · simp [h, h.asymm]

/-- **The priority is symmetric**, and there is no panic. -/
theorem bep40_symmetric (checksum : List UInt8 → UInt32) (a b : IpPort) :
    ∃ priority, bep40Priority checksum a b = .ok priority ∧
      bep40Priority checksum b a = .ok priority := by
  unfold bep40Priority
  refine (bep40PriorityBytes_swap a b).elim_eq (fun _ _ h => h.elim) fun bs _ hswap => ?_
  rw [hswap]
  refine ⟨_, rfl, ?_⟩
  cases bs with
  | none => rfl
  | some bs => exact congrArg (Except.ok ∘ some ∘ checksum) greater_swap

/-! ## Worse connections -/

/-- `worseConnInput`; there is no priority if `GetPeerPriority` returns an error. -/
structure WorseConnInput where
  useful : Bool := false
  lastHelpful : ℤ := 0
  completedHandshake : ℤ := 0
  peerPriority : Option ℕ
  pointer : ℕ
  deriving DecidableEq

namespace WorseConnInput

/-- The function that `Less` gives to `LazySameLess`: `same`, `less` -/
def sameLess (l r : WorseConnInput) : Bool × Bool :=
  match l.peerPriority, r.peerPriority with
  | some a, some b => (decide (a = b), decide (a < b))
  | _, _ => (true, false)

/-- The computation of `Less`. -/
def computation (l r : WorseConnInput) : Computation :=
  [compare l.useful r.useful, compare l.lastHelpful r.lastHelpful,
    compare l.completedHandshake r.completedHandshake,
    ReliableBT.sameLess (l.sameLess r).1 (l.sameLess r).2, compare l.pointer r.pointer]

/-- `Less` -/
def less (ml : Multiless) (l r : WorseConnInput) : Except Panic Bool :=
  if !ml.ok (l.computation r) then .error .cannotDifferentiate
  else .ok (ml.less (l.computation r))

/-- The fields `Less` looks at before the priorities. -/
def times (c : WorseConnInput) : Bool ×ₗ ℤ ×ₗ ℤ :=
  toLex (c.useful, toLex (c.lastHelpful, c.completedHandshake))

/-- The connections tie up to the priorities, the one in the middle has none, and the priorities of
the others are the other way round than the pointers. -/
def Cyclic (a b c : WorseConnInput) : Prop :=
  a.times = b.times ∧ b.times = c.times ∧ a.pointer < b.pointer ∧ b.pointer < c.pointer ∧
    b.peerPriority = none ∧ ∃ x ∈ a.peerPriority, ∃ y ∈ c.peerPriority, y < x

instance (a b c : WorseConnInput) : Decidable (Cyclic a b c) :=
  inferInstanceAs (Decidable (_ ∧ _ ∧ _ ∧ _ ∧ _ ∧ ∃ x ∈ a.peerPriority, _))

variable {a b c l r : WorseConnInput} {ml : Multiless}

/-- `l` is before `r`. -/
def Before (l r : WorseConnInput) : Prop := (l.computation r).result = .lt

theorem result_computation : (l.computation r).result =
    (compare l.times r.times).then ((ReliableBT.sameLess (l.sameLess r).1 (l.sameLess r).2).then
      (compare l.pointer r.pointer)) := by
  change _ = (Ordering.then _ (Ordering.then _ _)).then _
  simp only [computation, Computation.result_cons, Computation.result_nil, Ordering.then_eq,
    Ordering.then_assoc]
  rfl

theorem sameLess_swap : ReliableBT.sameLess (r.sameLess l).1 (r.sameLess l).2 =
    (ReliableBT.sameLess (l.sameLess r).1 (l.sameLess r).2).swap := by
  unfold sameLess ReliableBT.sameLess
  cases l.peerPriority <;> cases r.peerPriority <;> simp only [decide_eq_true_eq]
  all_goals split_ifs <;> first | rfl | omega

theorem result_swap : (r.computation l).result = (l.computation r).result.swap := by
  rw [result_computation, result_computation, Ordering.swap_then, Ordering.swap_then,
    sameLess_swap, Std.OrientedOrd.eq_swap (a := r.times),
    Std.OrientedOrd.eq_swap (a := r.pointer)]

theorem less_cases (ml : Multiless) (h : l.pointer ≠ r.pointer) :
    (l.Before r ∧ ¬ r.Before l ∧ l.less ml r = .ok true ∧ r.less ml l = .ok false) ∨
    (r.Before l ∧ ¬ l.Before r ∧ r.less ml l = .ok true ∧ l.less ml r = .ok false) := by
  have hne : (l.computation r).result ≠ .eq := fun heq => by
    rw [result_computation, Ordering.then_eq_eq, Ordering.then_eq_eq] at heq
    exact h (compare_eq_iff_eq.mp heq.2.2)
  simp only [Before, less, Multiless.ok_eq, Multiless.less_eq, result_swap (l := l)]
  cases hresult : (l.computation r).result with
  | lt => simp
  | gt => simp
  | eq => exact absurd hresult hne

theorem Before.times_le (h : l.Before r) : l.times ≤ r.times := by
  rw [Before, result_computation, Ordering.then_eq_lt] at h
  exact h.elim (fun h => (compare_lt_iff_lt.mp h).le) fun h => (compare_eq_iff_eq.mp h.1).le

theorem before_tied (h : l.times = r.times) : l.Before r ↔
    match l.peerPriority, r.peerPriority with
    | some x, some y => x < y ∨ x = y ∧ l.pointer < r.pointer
    | _, _ => l.pointer < r.pointer := by
  rw [Before, result_computation, compare_eq_iff_eq.mpr h, sameLess]
  cases l.peerPriority with
  | none => exact compare_lt_iff_lt
  | some x =>
    cases r.peerPriority with
    | none => exact compare_lt_iff_lt
    | some y =>
      dsimp only [ReliableBT.sameLess]
      by_cases heq : x = y
      · simp [heq, compare_lt_iff_lt]
      · by_cases hlt : x < y <;> simp [heq, hlt]

/-- Three connections, each before the next, are in cyclic position, from one of them on. -/
theorem cyclic_of_before (hab : a.Before b) (hbc : b.Before c) (hca : c.Before a) :
    Cyclic a b c ∨ Cyclic b c a ∨ Cyclic c a b := by
  have hab' := hab.times_le
  have hbc' := hbc.times_le
  have htimes : a.times = b.times := hab'.antisymm (hbc'.trans hca.times_le)
  have htimes' : b.times = c.times := hbc'.antisymm (hca.times_le.trans hab')
  rw [before_tied htimes] at hab
  rw [before_tied htimes'] at hbc
  rw [before_tied (htimes.trans htimes').symm] at hca
  simp only [Cyclic, htimes, htimes', true_and]
  cases ha : a.peerPriority <;> cases hb : b.peerPriority <;> cases hc : c.peerPriority <;>
    simp_all <;> omega

theorem Cyclic.before (h : Cyclic a b c) : a.Before b ∧ b.Before c ∧ c.Before a := by
  obtain ⟨htimes, htimes', hab, hbc, hb, x, hx, y, hy, hlt⟩ := h
  rw [before_tied htimes, before_tied htimes', before_tied (htimes.trans htimes').symm, hb, hx, hy]
  exact ⟨hab, hbc, .inl hlt⟩

theorem less_iff (h : l.pointer ≠ r.pointer) : l.less ml r = .ok true ↔ l.Before r := by
  rcases less_cases ml h with ⟨hbefore, -, hless, -⟩ | ⟨-, hbefore, -, hless⟩ <;>
    simp [hless, hbefore]

theorem Before.asymm (h : l.Before r) : ¬ r.Before l := fun h' => by
  rw [Before, result_swap, Ordering.swap_eq_lt, h] at h'
  cases h'

theorem Before.ne (h : l.Before r) : l ≠ r := fun heq => h.asymm (heq ▸ heq ▸ h)

theorem less_self : c.less ml c ≠ .ok true := by
  have hresult : (c.computation c).result ≠ .lt := fun h => (show c.Before c from h).ne rfl
  unfold less
  split_ifs
  · exact nofun
  · simpa using hresult

end WorseConnInput

open WorseConnInput

/-- **A strict total order of connections**: `Less` is irreflexive and transitive, and of different
connections one is less than the other, without a panic, exactly if no three of the connections are
in cyclic position. -/
theorem worse_total (ml : Multiless) (conns : List WorseConnInput)
    (hpointer : (conns.map WorseConnInput.pointer).Nodup) :
    ((∀ c ∈ conns, c.less ml c ≠ .ok true) ∧
    (∀ l ∈ conns, ∀ r ∈ conns, l ≠ r → ∃ b, l.less ml r = .ok b ∧ r.less ml l = .ok !b) ∧
    ∀ a ∈ conns, ∀ b ∈ conns, ∀ c ∈ conns,
      a.less ml b = .ok true → b.less ml c = .ok true → a.less ml c = .ok true) ↔
    ∀ a ∈ conns, ∀ b ∈ conns, ∀ c ∈ conns, ¬ Cyclic a b c := by
  have hne : ∀ l ∈ conns, ∀ r ∈ conns, l ≠ r → l.pointer ≠ r.pointer := fun l hl r hr hne heq =>
    hne (inj_on_of_nodup_map hpointer hl hr heq)
  constructor
  · rintro ⟨-, -, htrans⟩ a ha b hb c hc h
    obtain ⟨hab, hbc, hca⟩ := h.before
    have hless := htrans a ha b hb c hc ((less_iff (hne a ha b hb hab.ne)).mpr hab)
      ((less_iff (hne b hb c hc hbc.ne)).mpr hbc)
    exact hca.asymm ((less_iff (hne a ha c hc hca.ne.symm)).mp hless)
  · intro hcyclic
    refine ⟨fun c _ => less_self, fun l hl r hr hlr => ?_, fun a ha b hb c hc hab hbc => ?_⟩
    · rcases less_cases ml (hne l hl r hr hlr) with ⟨-, -, h, h'⟩ | ⟨-, -, h, h'⟩
      · exact ⟨true, h, h'⟩
      · exact ⟨false, h', h⟩
    · have hne_ab : a ≠ b := fun heq => less_self (heq ▸ hab)
      have hne_bc : b ≠ c := fun heq => less_self (heq ▸ hbc)
      rw [less_iff (hne a ha b hb hne_ab)] at hab
      rw [less_iff (hne b hb c hc hne_bc)] at hbc
      have hne_ac : a ≠ c := fun heq => hab.asymm (heq ▸ hbc)
      rcases less_cases ml (hne a ha c hc hne_ac) with ⟨-, -, h, -⟩ | ⟨hca, -⟩
      · exact h
      · rcases cyclic_of_before hab hbc hca with h | h | h
        · exact absurd h (hcyclic a ha b hb c hc)
        · exact absurd h (hcyclic b hb c hc a ha)
        · exact absurd h (hcyclic c hc a ha b hb)

theorem worse_total_useful : ∃ b,
    (⟨false, 0, 0, some 2, 1⟩ : WorseConnInput).less .ordering ⟨false, 0, 0, none, 2⟩ = .ok b ∧
      (⟨false, 0, 0, none, 2⟩ : WorseConnInput).less .ordering ⟨false, 0, 0, some 2, 1⟩ = .ok !b :=
  ((worse_total .ordering [⟨false, 0, 0, some 2, 1⟩, ⟨false, 0, 0, none, 2⟩] (by decide)).mpr
    (by decide)).2.1 _ (by decide) _ (by decide) (by decide)

/-- **A cycle**: the priority of the connection in the middle is not available. -/
theorem worse_cycle :
    (⟨false, 0, 0, some 2, 1⟩ : WorseConnInput).less .ordering ⟨false, 0, 0, none, 2⟩ = .ok true ∧
    (⟨false, 0, 0, none, 2⟩ : WorseConnInput).less .ordering ⟨false, 0, 0, some 1, 3⟩ = .ok true ∧
    (⟨false, 0, 0, some 1, 3⟩ : WorseConnInput).less .ordering ⟨false, 0, 0, some 2, 1⟩ =
      .ok true := by
  decide

end ReliableBT.PeerPriority
