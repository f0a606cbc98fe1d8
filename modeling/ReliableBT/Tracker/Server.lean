import Mathlib

/-!
# The tracker server (`tracker/server/server.go`)

`AnnounceHandler.Serve` answers an announce with the peers of a local store. When these are few it
also asks other trackers: an operation collects their peers in a set, is shared by all calls for the
torrent, and goes on by itself. A call takes a snapshot of the set of an operation that is already
running, and another one in the end, when the operation is done or time is up.

The model is the system of all calls and operations. A step is one action of a call or of an
operation, so that calls and operations are interleaved in every way; what the local store, the
other trackers, the clock and the order of a map do is part of the action. Slices are modelled with
the array behind them, for `addMissing` appends to a slice that its caller has too.

The tracking of the peers that the other trackers returned is left out; it happens between `close`
and `remove`.

* `elems_addMissing`: the caller's slice is the same after `addMissing`, though its array need not
  be.
* `Inv.run`: so in every run the peers of a call are those of the local store.
* `answers_iff`: an answer is what it should be iff the local store had all peers of the snapshots.
-/

open List Option Function

namespace ReliableBT.TrackerServer

/-- `PeerInfo`: the bytes of an address, and a port -/
structure PeerInfo where
  addr : List UInt8
  port : ℕ
  deriving DecidableEq, Repr

/-- `tracker.Peer` -/
structure Peer where
  ip : List UInt8
  port : ℤ
  deriving DecidableEq, Repr

/-- A slice of peers: the array, and how much of it belongs to the slice. -/
structure PeerSlice where
  cells : List PeerInfo
  len : ℕ
  le : len ≤ cells.length

/-- The elements of a slice. -/
def PeerSlice.elems (s : PeerSlice) : List PeerInfo := s.cells.take s.len

/-- `append`, of one peer after the other, to the first `m` elements of an array: what becomes of
the array, and the elements of the resulting slice. -/
def appendAll (cells : List PeerInfo) (m : ℕ) : List PeerInfo → List PeerInfo × List PeerInfo
  | [] => (cells, cells.take m)
  | p :: ps =>
    if m < cells.length then appendAll (cells.set m p) (m + 1) ps
    -- from here on the slice has another array
    else (cells, cells.take m ++ p :: ps)

theorem length_appendAll (cells : List PeerInfo) (m : ℕ) (ps : List PeerInfo) :
    (appendAll cells m ps).1.length = cells.length := by
  induction ps generalizing cells m with
  | nil => rfl
  | cons p ps ih =>
    rw [appendAll]
    split
    · rw [ih, length_set]
    · rfl

/-- `addMissing`, for the peers of the set in the order in which the map gives them: what becomes of
the caller's slice, and the elements of its own one in the end -/
def addMissing (orig : PeerSlice) (new : List PeerInfo) : PeerSlice × List PeerInfo :=
  let new := orig.elems.foldl List.erase new
  let r := appendAll orig.cells orig.len new
  (⟨r.1, orig.len, by rw [length_appendAll]; exact orig.le⟩, r.2)

/-! ## Operations -/

variable {H E : Type}

/-- `augmentationOperation`, with the number of other trackers that have not answered yet. After
`closed` no answers are pending, and `done` stands for `doneAnnouncing`. -/
structure Op (H : Type) where
  hash : H
  peers : List PeerInfo
  pending : ℕ
  closed : Bool
  done : Bool

/-- `netip.AddrFromSlice` -/
def addrFromSlice (ip : List UInt8) : Option (List UInt8) :=
  if ip.length = 4 ∨ ip.length = 16 then some ip else none

/-- `voldemort`, for the set of the operation -/
def voldemort (peers : List Peer) (set : List PeerInfo) : List PeerInfo :=
  peers.foldl (fun set protoPeer =>
    match addrFromSlice protoPeer.ip with
    | none => set
    | some addr => set.insert ⟨addr, (protoPeer.port % 2 ^ 16).toNat⟩) set

/-- The actions of an operation: an answer of another tracker; the end of the answers; the end of
the announcing; the end of the operation. -/
inductive OpAction where
  | respond (peers : List Peer)
  | close
  | finish
  | remove

/-- An action of an operation, on the operation itself. -/
def Op.step (op : Op H) : OpAction → Option (Op H)
  | .respond peers =>
    if op.pending = 0 then none
    else some { op with peers := voldemort peers op.peers, pending := op.pending - 1 }
  | .close => if op.pending = 0 then some { op with closed := true } else none
  | .finish => if op.closed then some { op with done := true } else none
  | .remove => if op.closed then some op else none

/-! ## Calls -/

/-- `ServerAnnounceResult`, as `GetPeers` returns it -/
structure PeersResult (E : Type) where
  err : Option E
  peers : PeerSlice
  interval : Option ℤ
  leechers : Option ℤ
  seeders : Option ℤ

/-- The errors of `Serve`: that of `TrackAnnounce`, wrapped, and that of `GetPeers`. -/
inductive ServeError (E : Type) where
  | trackingAnnounce (err : E)
  | getPeers (err : E)

/-- `ServerAnnounceResult`, as `Serve` returns it -/
structure Result (E : Type) where
  err : Option (ServeError E)
  peers : PeerSlice
  interval : Option ℤ
  leechers : Option ℤ
  seeders : Option ℤ

/-- Where a call of `Serve` is. -/
inductive Pc where
  | track
  | lookup
  | getPeers
  | augment
  | start
  | wait
  | collect
  | returned
  deriving DecidableEq

/-- A call of `Serve`: the request, its variables, and what it has seen so far, that is the peers of
the local store and the snapshots. -/
structure Call (H E : Type) where
  hash : H
  numWant : ℤ
  maxCount : Option ℕ
  pc : Pc
  op : Option ℕ
  ret : Result E
  localPeers : List PeerInfo
  snapshots : List (List PeerInfo)

/-- A call at its start. -/
def Call.new (hash : H) (numWant : ℤ) (maxCount : Option ℕ) : Call H E where
  hash := hash
  numWant := numWant
  maxCount := maxCount
  pc := .track
  op := none
  ret := ⟨none, ⟨[], 0, Nat.le_refl 0⟩, none, none, none⟩
  localPeers := []
  snapshots := []

/-- The `num_want` limit; a negative number becomes a large one. -/
def limitCount (numWant : ℤ) (maxCount : Option ℕ) : Option ℕ :=
  if numWant = -1 then maxCount
  else
    let newCount := (numWant % 2 ^ 64).toNat
    match maxCount with
    | none => some newCount
    | some value => if newCount < value then some newCount else some value

/-- The actions of a call: the result of `TrackAnnounce`; the look at the running operations; the
result of `GetPeers`; the first snapshot; the section that may start an operation; the end of the
waiting; the last snapshot. -/
inductive CallAction (E : Type) where
  | track (err : Option E)
  | lookup
  | getPeers (res : PeersResult E)
  | augment (order : List PeerInfo)
  | start
  | wait (timeout : Bool)
  | collect (order : List PeerInfo)

/-- All calls and operations, and `ongoingUpstreamAugmentations`. -/
structure Sys (H E : Type) where
  upstreams : ℕ
  ops : List (Op H)
  ongoing : H → Option ℕ
  calls : List (Call H E)

/-- A snapshot of an operation, given to `addMissing`: the set is a copy, and the map gives it in
any order. -/
def Call.take (c : Call H E) (op : Op H) (order : List PeerInfo) : Option (Call H E) :=
  if order.Perm op.peers then
    some { c with
      ret := { c.ret with peers := (addMissing c.ret.peers order).1 }
      snapshots := c.snapshots ++ [order] }
  else none

section Steps

variable [DecidableEq H]

/-- The section of `Serve` that is locked: finds or starts an operation. -/
def startOp (s : Sys H E) (c : Call H E) : Sys H E × Call H E :=
  if c.op = none ∧ c.ret.peers.len ≤ 1 ∧ 0 < c.maxCount.getD 1 then
    match s.ongoing c.hash with
    | some o => (s, { c with op := some o })
    | none =>
      ({ s with
          ops := s.ops ++ [⟨c.hash, [], s.upstreams, false, false⟩]
          ongoing := update s.ongoing c.hash (some s.ops.length) },
        { c with op := some s.ops.length })
  else (s, c)

/-- An action of a call of `Serve`. -/
def callStep (s : Sys H E) (c : Call H E) : CallAction E → Option (Sys H E × Call H E)
  | .track err =>
    if c.pc ≠ .track then none
    else
      match err with
      | some e =>
        some (s, { c with
          ret := { c.ret with err := some (.trackingAnnounce e) }
          pc := .returned })
      | none => some (s, { c with pc := .lookup })
  | .lookup =>
    if c.pc ≠ .lookup then none
    else
      some (s, { c with
        op := s.ongoing c.hash
        maxCount := limitCount c.numWant c.maxCount
        pc := .getPeers })
  | .getPeers res =>
    if c.pc ≠ .getPeers then none
    else
      some (s, { c with
        ret := ⟨res.err.map .getPeers, res.peers, res.interval, res.leechers, res.seeders⟩
        localPeers := res.peers.elems
        pc := if res.err.isSome then .returned else .augment })
  | .augment order =>
    if c.pc ≠ .augment then none
    else
      match c.op with
      | none => some (s, { c with pc := .start })
      | some o => do
        let op ← s.ops[o]?
        let c ← c.take op order
        -- it doesn't get any better with a finished operation
        some (s, { c with op := if op.done then none else some o, pc := .start })
  | .start =>
    if c.pc ≠ .start then none
    else
      let r := startOp s c
      some (r.1, { r.2 with pc := .wait })
  | .wait timeout =>
    if c.pc ≠ .wait then none
    else
      match c.op with
      | none => some (s, { c with pc := .returned })
      | some o => do
        let op ← s.ops[o]?
        if timeout ∨ op.done then some (s, { c with pc := .collect }) else none
  | .collect order =>
    if c.pc ≠ .collect then none
    else do
      let o ← c.op
      let op ← s.ops[o]?
      let c ← c.take op order
      some (s, { c with pc := .returned })

/-! ## The system -/

/-- A new call, or an action of a call or of an operation. -/
inductive Action (H E : Type) where
  | serve (hash : H) (numWant : ℤ) (maxCount : Option ℕ)
  | call (i : ℕ) (a : CallAction E)
  | op (o : ℕ) (a : OpAction)

/-- An action of the system. -/
def step (s : Sys H E) : Action H E → Option (Sys H E)
  | .serve hash numWant maxCount =>
    some { s with calls := s.calls ++ [Call.new hash numWant maxCount] }
  | .call i a => do
    let c ← s.calls[i]?
    let r ← callStep s c a
    some { r.1 with calls := r.1.calls.set i r.2 }
  | .op o a => do
    let op ← s.ops[o]?
    let op' ← op.step a
    some { s with
      ops := s.ops.set o op'
      ongoing := match a with
        | .remove => update s.ongoing op.hash none
        | _ => s.ongoing }

/-- A run. -/
def run (s : Sys H E) : List (Action H E) → Option (Sys H E)
  | [] => some s
  | a :: as => (step s a).bind (run · as)

end Steps

/-- The server before the first call. -/
def init (upstreams : ℕ) : Sys H E := ⟨upstreams, [], fun _ => none, []⟩

/-! ## `addMissing` -/

variable {cells : List PeerInfo} {m o : ℕ} {order : List PeerInfo}

theorem take_appendAll {k : ℕ} (hk : k ≤ m) (ps : List PeerInfo) :
    (appendAll cells m ps).1.take k = cells.take k := by
  induction ps generalizing cells m with
  | nil => rfl
  | cons p ps ih =>
    rw [appendAll]
    split
    · rw [ih (by omega), take_set_of_le hk]
    · rfl

theorem elems_addMissing (orig : PeerSlice) (new : List PeerInfo) :
    (addMissing orig new).1.elems = orig.elems :=
  take_appendAll (Nat.le_refl _) _

/-! ## What holds in every run -/

/-- There is such an operation, for such a torrent. -/
def HasOp (ops : List (Op H)) (o : ℕ) (h : H) : Prop := ∃ op, ops[o]? = some op ∧ op.hash = h

/-- Operations stay. -/
def Grows (ops ops' : List (Op H)) : Prop := ∀ o h, HasOp ops o h → HasOp ops' o h

/-- The sets are sets, and `ongoingUpstreamAugmentations` has operations of the right torrents. -/
structure Shared (s : Sys H E) : Prop where
  nodup : ∀ op ∈ s.ops, op.peers.Nodup
  ongoing : ∀ h o, s.ongoing h = some o → HasOp s.ops o h

/-- What holds of a call all the time: its peers are those of the local store. -/
structure CallOk (ops : List (Op H)) (c : Call H E) : Prop where
  same : c.ret.peers.elems = c.localPeers
  op : ∀ o, c.op = some o → HasOp ops o c.hash
  collect : c.pc = .collect → c.op ≠ none
  snapshots : ∀ snapshot ∈ c.snapshots, snapshot.Nodup

/-- What holds all the time. -/
structure Inv (s : Sys H E) : Prop extends Shared s where
  calls : ∀ c ∈ s.calls, CallOk s.ops c

theorem Grows.refl (ops : List (Op H)) : Grows ops ops := fun _ _ h => h

theorem grows_append (ops : List (Op H)) (op : Op H) : Grows ops (ops ++ [op]) := by
  rintro o h ⟨op', hop', hh⟩
  exact ⟨op', by rw [List.getElem?_append_left (List.getElem?_eq_some_iff.mp hop').1, hop'], hh⟩

theorem grows_set {ops : List (Op H)} {op op' : Op H} (hop : ops[o]? = some op)
    (hh : op'.hash = op.hash) : Grows ops (ops.set o op') := by
  rintro o₁ h ⟨op₁, hop₁, hh₁⟩
  by_cases heq : o = o₁
  · subst heq
    obtain rfl : op = op₁ := some.inj (hop.symm.trans hop₁)
    exact ⟨op', List.getElem?_set_self (List.getElem?_eq_some_iff.mp hop).1, hh.trans hh₁⟩
  · exact ⟨op₁, by rw [getElem?_set_ne heq, hop₁], hh₁⟩

theorem CallOk.grows {ops ops' : List (Op H)} {c : Call H E} (h : CallOk ops c)
    (hgrows : Grows ops ops') : CallOk ops' c :=
  ⟨h.same, fun o ho => hgrows o c.hash (h.op o ho), h.collect, h.snapshots⟩

theorem take_spec {c c' : Call H E} {op : Op H} (h : c.take op order = some c') :
    order.Perm op.peers ∧ c'.ret.peers.elems = c.ret.peers.elems ∧ c'.op = c.op ∧
      c'.hash = c.hash ∧ c'.localPeers = c.localPeers ∧ c'.snapshots = c.snapshots ++ [order] := by
  rw [Call.take] at h
  split at h
  · next hperm =>
    rw [← some.inj h]
    exact ⟨hperm, elems_addMissing _ _, rfl, rfl, rfl, rfl⟩
  · cases h

theorem CallOk.take {s : Sys H E} (hs : Shared s) {c c' : Call H E} (hc : CallOk s.ops c)
    {op : Op H} (hop : s.ops[o]? = some op) (h : c.take op order = some c') (op' : Option ℕ)
    (hop' : op' = none ∨ op' = c.op) {pc : Pc} (hpc : pc ≠ .collect) :
    CallOk s.ops { c' with op := op', pc := pc } := by
  obtain ⟨hperm, hpeers, -, hhash, hlocal, hsnapshots⟩ := take_spec h
  refine ⟨?_, ?_, fun heq => absurd heq hpc, ?_⟩
  · exact hpeers.trans (hc.same.trans hlocal.symm)
  · intro o' ho'
    dsimp only at ho' ⊢
    rw [hhash]
    rcases hop' with rfl | rfl
    · cases ho'
    · exact hc.op o' ho'
  · intro snapshot hmem
    dsimp only at hmem
    rw [hsnapshots, mem_append, mem_singleton] at hmem
    rcases hmem with hmem | rfl
    · exact hc.snapshots snapshot hmem
    · exact hperm.nodup_iff.mpr (hs.nodup op (mem_of_getElem? hop))

theorem nodup_voldemort (peers : List Peer) {set : List PeerInfo} (h : set.Nodup) :
    (voldemort peers set).Nodup := by
  rw [voldemort]
  induction peers generalizing set with
  | nil => exact h
  | cons p peers ih =>
    rw [foldl_cons]
    refine ih ?_
    split
    · exact h
    · exact h.insert

theorem Op.step_spec {op op' : Op H} {a : OpAction} (h : op.step a = some op') :
    op'.hash = op.hash ∧ (op.peers.Nodup → op'.peers.Nodup) := by
  cases a with
  | respond peers =>
    simp only [Op.step, ite_none_left_eq_some, some.injEq] at h
    obtain ⟨-, rfl⟩ := h
    exact ⟨rfl, nodup_voldemort peers⟩
  | close | finish | remove =>
    simp only [Op.step, ite_none_right_eq_some, some.injEq] at h
    obtain ⟨-, rfl⟩ := h
    exact ⟨rfl, id⟩

theorem inv_init (upstreams : ℕ) : Inv (init upstreams : Sys H E) :=
  ⟨⟨fun _ h => (nomatch h), fun _ _ h => (nomatch h)⟩, fun _ h => (nomatch h)⟩

/-- What an answer should be: it has the peers of the local store, and those of the snapshots, each
of which once. -/
structure Answers (c : Call H E) : Prop where
  localPeers : ∀ p ∈ c.localPeers, p ∈ c.ret.peers.elems
  snapshots : ∀ snapshot ∈ c.snapshots, ∀ p ∈ snapshot, c.ret.peers.elems.count p = 1

section Runs

variable [DecidableEq H]

theorem startOp_spec {s : Sys H E} (hs : Shared s) {c : Call H E} (hc : CallOk s.ops c) :
    Shared (startOp s c).1 ∧ Grows s.ops (startOp s c).1.ops ∧ (startOp s c).1.calls = s.calls ∧
      CallOk (startOp s c).1.ops { (startOp s c).2 with pc := .wait } := by
  have hwait : CallOk s.ops { c with pc := .wait } :=
    ⟨hc.same, hc.op, fun h => (nomatch h), hc.snapshots⟩
  rw [startOp]
  split
  · cases hongoing : s.ongoing c.hash with
    | some o =>
      refine ⟨hs, Grows.refl _, rfl, hc.same, ?_, fun h => (nomatch h), hc.snapshots⟩
      rintro o' ⟨⟩
      exact hs.ongoing c.hash o hongoing
    | none =>
      have hgrows := grows_append s.ops ⟨c.hash, [], s.upstreams, false, false⟩
      have hnew : HasOp (s.ops ++ [⟨c.hash, [], s.upstreams, false, false⟩]) s.ops.length c.hash :=
        ⟨_, getElem?_concat_length, rfl⟩
      refine ⟨⟨?_, ?_⟩, hgrows, rfl, hc.same, ?_, fun h => (nomatch h), hc.snapshots⟩
      · intro op hop
        rcases mem_append.mp hop with hop | hop
        · exact hs.nodup op hop
        · rw [mem_singleton.mp hop]
          exact nodup_nil
      · intro h o ho
        dsimp only at ho ⊢
        by_cases hh : h = c.hash
        · subst hh
          rw [update_self] at ho
          obtain rfl := some.inj ho
          exact hnew
        · rw [update_of_ne hh] at ho
          exact hgrows o h (hs.ongoing h o ho)
      · rintro o' ⟨⟩
        exact hnew
  · exact ⟨hs, Grows.refl _, rfl, hwait⟩

/-- **An action of a call** keeps what holds. -/
theorem callStep_spec {s s' : Sys H E} (hs : Shared s) {c c' : Call H E} (hc : CallOk s.ops c)
    {a : CallAction E} (h : callStep s c a = some (s', c')) :
    Shared s' ∧ Grows s.ops s'.ops ∧ s'.calls = s.calls ∧ CallOk s'.ops c' := by
  -- most actions leave the shared state alone
  have hkeep : ∀ {c₁ : Call H E}, some (s, c₁) = some (s', c') → CallOk s.ops c₁ →
      Shared s' ∧ Grows s.ops s'.ops ∧ s'.calls = s.calls ∧ CallOk s'.ops c' := by
    rintro c₁ ⟨⟩ hc₁
    exact ⟨hs, Grows.refl _, rfl, hc₁⟩
  cases a with
  | track err =>
    simp only [callStep, ite_none_left_eq_some] at h
    cases err with
    | none => exact hkeep h.2 ⟨hc.same, hc.op, fun hpc => (nomatch hpc), hc.snapshots⟩
    | some e => exact hkeep h.2 ⟨hc.same, hc.op, fun hpc => (nomatch hpc), hc.snapshots⟩
  | lookup =>
    simp only [callStep, ite_none_left_eq_some] at h
    exact hkeep h.2 ⟨hc.same, fun o ho => hs.ongoing c.hash o ho, fun hpc => (nomatch hpc),
      hc.snapshots⟩
  | getPeers res =>
    simp only [callStep, ite_none_left_eq_some] at h
    refine hkeep h.2 ⟨rfl, hc.op, fun hpc => ?_, hc.snapshots⟩
    dsimp only at hpc
    split at hpc <;> cases hpc
  | augment order =>
    simp only [callStep, ite_none_left_eq_some] at h
    obtain ⟨-, h⟩ := h
    split at h
    · exact hkeep h ⟨hc.same, hc.op, fun hpc => (nomatch hpc), hc.snapshots⟩
    · next o ho =>
      simp only [bind_eq_bind, bind_eq_some_iff] at h
      obtain ⟨op, hop, c₁, hc₁, h⟩ := h
      refine hkeep h (hc.take hs hop hc₁ _ ?_ (fun hpc => nomatch hpc))
      split
      · exact .inl rfl
      · exact .inr ho.symm
  | start =>
    simp only [callStep, ite_none_left_eq_some] at h
    obtain ⟨rfl, rfl⟩ := Prod.mk.inj (some.inj h.2)
    exact startOp_spec hs hc
  | wait timeout =>
    simp only [callStep, ite_none_left_eq_some] at h
    obtain ⟨-, h⟩ := h
    split at h
    · exact hkeep h ⟨hc.same, hc.op, fun hpc => (nomatch hpc), hc.snapshots⟩
    · next o ho =>
      simp only [bind_eq_bind, bind_eq_some_iff, ite_none_right_eq_some] at h
      obtain ⟨op, -, -, h⟩ := h
      exact hkeep h ⟨hc.same, hc.op, fun _ => by simp [ho], hc.snapshots⟩
  | collect order =>
    simp only [callStep, ite_none_left_eq_some, bind_eq_bind, bind_eq_some_iff] at h
    obtain ⟨-, o, ho, op, hop, c₁, hc₁, h⟩ := h
    exact hkeep h (hc.take hs hop hc₁ c₁.op (.inr (take_spec hc₁).2.2.1) (fun hpc => nomatch hpc))

/-! ## Runs -/

/-- **One step** of the system. -/
theorem Inv.step {s s' : Sys H E} (hs : Inv s) {a : Action H E} (h : step s a = some s') :
    Inv s' := by
  cases a with
  | serve hash numWant maxCount =>
    obtain rfl := some.inj h
    refine ⟨⟨hs.nodup, hs.ongoing⟩, fun c hc => ?_⟩
    rcases mem_append.mp hc with hc | hc
    · exact hs.calls c hc
    · rw [mem_singleton.mp hc]
      exact ⟨rfl, fun o ho => (nomatch ho), fun hpc => (nomatch hpc), fun _ hmem => (nomatch hmem)⟩
  | call i a =>
    simp only [TrackerServer.step, bind_eq_bind, bind_eq_some_iff] at h
    obtain ⟨c, hc, ⟨s₁, c₁⟩, hstep, h⟩ := h
    obtain rfl := some.inj h
    obtain ⟨hshared, hgrows, hcalls, hok⟩ :=
      callStep_spec hs.toShared (hs.calls c (mem_of_getElem? hc)) hstep
    refine ⟨⟨hshared.nodup, hshared.ongoing⟩, fun c' hc' => ?_⟩
    dsimp only at hc'
    rw [hcalls] at hc'
    rcases mem_or_eq_of_mem_set hc' with hc' | rfl
    · exact (hs.calls c' hc').grows hgrows
    · exact hok
  | op o a =>
    simp only [TrackerServer.step, bind_eq_bind, bind_eq_some_iff] at h
    obtain ⟨op, hop, op', hstep, h⟩ := h
    obtain rfl := some.inj h
    obtain ⟨hhash, hnodup⟩ := Op.step_spec hstep
    have hgrows := grows_set hop hhash
    refine ⟨⟨?_, ?_⟩, fun c hc => (hs.calls c hc).grows hgrows⟩
    · intro op₁ hop₁
      rcases mem_or_eq_of_mem_set hop₁ with hop₁ | rfl
      · exact hs.nodup op₁ hop₁
      · exact hnodup (hs.nodup op (mem_of_getElem? hop))
    · intro hash o₁ ho₁
      dsimp only at ho₁ ⊢
      refine hgrows o₁ hash (hs.ongoing hash o₁ ?_)
      -- an operation that is removed leaves the others
      split at ho₁
      · by_cases heq : hash = op.hash
        · rw [heq, update_self] at ho₁
          cases ho₁
        · rwa [update_of_ne heq] at ho₁
      · exact ho₁

/-- **Every run.** -/
theorem Inv.run {s s' : Sys H E} (hs : Inv s) {as : List (Action H E)} (h : run s as = some s') :
    Inv s' := by
  induction as generalizing s with
  | nil =>
    obtain rfl := some.inj h
    exact hs
  | cons a as ih =>
    obtain ⟨s₁, hstep, hrun⟩ := bind_eq_some_iff.mp h
    exact ih (hs.step hstep) hrun

/-- **Answers.** In every run, the answer of a call is what it should be iff the local store had
every peer of the snapshots, once. -/
theorem answers_iff {upstreams : ℕ} {as : List (Action H E)} {s : Sys H E}
    (h : run (init upstreams) as = some s) {c : Call H E} (hc : c ∈ s.calls) :
    Answers c ↔ ∀ snapshot ∈ c.snapshots, ∀ p ∈ snapshot, c.localPeers.count p = 1 := by
  have hsame := (((inv_init upstreams).run h).calls c hc).same
  constructor
  · intro hanswers snapshot hmem p hp
    rw [← hsame]
    exact hanswers.snapshots snapshot hmem p hp
  · intro hall
    refine ⟨fun p hp => ?_, fun snapshot hmem p hp => ?_⟩
    · rwa [hsame]
    · rw [hsame]
      exact hall snapshot hmem p hp

end Runs

/-- A peer, as another tracker returns it. -/
def upstreamPeer : Peer := ⟨[10, 0, 0, 1], 80⟩

/-- The same peer, as it is stored. -/
def storedPeer : PeerInfo := ⟨[10, 0, 0, 1], 80⟩

/-- A result of the local store without errors. -/
def found (peers : List PeerInfo) : PeersResult Unit :=
  ⟨none, ⟨peers, peers.length, Nat.le_refl _⟩, none, none, none⟩

/-- A call that finds no peers and starts an operation, which gets one peer. -/
def firstCall : List (Action Unit Unit) :=
  [.serve () (-1) none, .call 0 (.track none), .call 0 .lookup, .call 0 (.getPeers (found [])),
    .call 0 (.augment []), .call 0 .start, .op 0 (.respond [upstreamPeer])]

/-- A second call, which finds this peer in the local store and in both snapshots. -/
def secondCall : List (Action Unit Unit) :=
  [.serve () (-1) none, .call 1 (.track none), .call 1 .lookup,
    .call 1 (.getPeers (found [storedPeer])), .call 1 (.augment [storedPeer]), .call 1 .start,
    .call 1 (.wait true), .call 1 (.collect [storedPeer])]

/-- The operation ends, and the first call returns. -/
def firstReturns : List (Action Unit Unit) :=
  [.op 0 .close, .op 0 .finish, .call 0 (.wait false), .call 0 (.collect [storedPeer])]

theorem second_call_answers :
    ∃ s c, run (init 1) (firstCall ++ secondCall) = some s ∧ s.calls[1]? = some c ∧
      c.pc = .returned ∧ c.ret.err = none ∧ c.snapshots = [[storedPeer], [storedPeer]] ∧
      Answers c := by
  refine ⟨_, _, rfl, rfl, rfl, rfl, rfl, ?_⟩
  refine (@answers_iff _ _ _ 1 (firstCall ++ secondCall) _ rfl _
    (mem_of_getElem? (i := 1) rfl)).mpr ?_
  decide

/-- The first call has the peer in its snapshot, and returns no peers. -/
theorem first_call_misses :
    ∃ s c, run (init 1) (firstCall ++ firstReturns) = some s ∧ s.calls[0]? = some c ∧
      c.pc = .returned ∧ c.ret.err = none ∧ c.snapshots = [[storedPeer]] ∧
      c.ret.peers.elems = [] ∧ ¬ Answers c := by
  refine ⟨_, _, rfl, rfl, rfl, rfl, rfl, rfl, fun hanswers => ?_⟩
  have hcount := hanswers.snapshots [storedPeer] mem_cons_self storedPeer mem_cons_self
  exact absurd hcount (by decide)

end ReliableBT.TrackerServer
