import ReliableBT.Lib.Multiless
import ReliableBT.Torrent.Steps

/-!
# The established connections of a torrent

`addPeerConn` adds a connection to `t.conns` unless another connection to the same peer is preferred
to it, or the limit is reached and none of the connections is bad enough to go for it.
`SetMaxEstablishedConns` drops connections down to a new limit. A connection can be closed and still
be there: the goroutine that writes closes it, and the one that reads drops it later.

* `Surroundings` is what a call finds apart from the connections: the order in which `range` goes
  through the map, the order in which the heap of `worseConnSlice` gives connections up, statistics
  and times, and the package `multiless`. Both orders are arbitrary.
* `dropConnection` is modelled without PEX and without the dialling that follows it.

Results:
* `conns_within_limit`: no run panics, there are never more connections than the limit, and none
  twice to the same peer as long as duplicates are dropped.
* `same_connection_kept`: of two connections, one initiated from each end, both ends keep the same,
  in whatever orders they add them. The direction alone decides, and both ends prefer the same one.
* `addPeerConn_events`: in the torrent as a whole a call is a few events that drop connections, and
  one that adds the new one if there is no error.
-/

open List

namespace ReliableBT.Established

variable {α : Type} [DecidableEq α]

/-- `PeerID` -/
abbrev PeerID := List UInt8

/-- What does not change of a `PeerConn`; the number stands for the pointer. -/
structure PeerConn (α : Type) where
  pointer : ℕ
  peerID : PeerID
  outgoing : Bool
  utp : Bool
  ipv6 : Bool
  remoteAddr : α
  deriving DecidableEq, Repr

/-- What a call finds apart from the connections. -/
structure Surroundings (α : Type) where
  multiless : Multiless
  /-- `cl.config.DropDuplicatePeerIds` -/
  dropDuplicatePeerIds : Bool
  /-- The order in which `range` goes through the map. -/
  order : List (PeerConn α) → List (PeerConn α)
  order_perm : ∀ l, (order l).Perm l
  /-- The order in which the heap of `worseConnSlice` gives the connections up. -/
  worst : List (PeerConn α) → List (PeerConn α)
  worst_perm : ∀ l, (worst l).Perm l
  chunksReadWasted : PeerConn α → ℤ
  chunksReadUseful : PeerConn α → ℤ
  /-- `time.Since(c.completedHandshake)`, in nanoseconds -/
  sinceHandshake : PeerConn α → ℤ

/-- The connections of a torrent, as the map `conns` and the flags `closed`. -/
structure Torrent (α : Type) where
  /-- `t.cl.peerID` -/
  clientPeerID : PeerID
  closed : Bool
  conns : List (PeerConn α)
  connClosed : PeerConn α → Bool
  maxEstablishedConns : ℤ

/-- The panics. -/
inductive Panic
  /-- "connection is not closed" -/
  | connectionIsNotClosed
  /-- `panic(len(t.conns))` -/
  | tooManyConns (n : ℕ)
  deriving DecidableEq, Repr

/-- The errors of `addPeerConn`. -/
inductive AddError
  /-- "torrent closed" -/
  | torrentClosed
  /-- "existing connection preferred" -/
  | existingConnectionPreferred
  /-- "don't want conns" -/
  | dontWantConns
  deriving DecidableEq, Repr

/-- `time.Minute` -/
def minute : ℤ := 60000000000

namespace PeerConn

/-- `isPreferredDirection` -/
def isPreferredDirection (clientPeerID : PeerID) (cn : PeerConn α) : Bool :=
  decide (clientPeerID < cn.peerID) == cn.outgoing

/-- `hasPreferredNetworkOver` -/
def hasPreferredNetworkOver (ml : Multiless) (clientPeerID : PeerID) (l r : PeerConn α) : Bool :=
  ml.less [compare (r.isPreferredDirection clientPeerID) (l.isPreferredDirection clientPeerID),
    compare l.utp r.utp, compare r.ipv6 l.ipv6]

end PeerConn

namespace Torrent

/-- `newTorrentOpt`, with `EstablishedConnsPerTorrent` -/
def init (clientPeerID : PeerID) (establishedConnsPerTorrent : ℤ) : Torrent α where
  clientPeerID := clientPeerID
  closed := false
  conns := []
  connClosed := fun _ => false
  maxEstablishedConns := establishedConnsPerTorrent

/-- `c.close()` -/
def closeConn (t : Torrent α) (c : PeerConn α) : Torrent α :=
  { t with connClosed := fun c' => t.connClosed c' || decide (c' = c) }

/-- `deletePeerConn` -/
def deletePeerConn (t : Torrent α) (c : PeerConn α) : Except Panic (Bool × Torrent α) := do
  require (t.connClosed c) .connectionIsNotClosed
  return (decide (c ∈ t.conns), { t with conns := t.conns.erase c })

/-- `dropConnection` -/
def dropConnection (t : Torrent α) (c : PeerConn α) : Except Panic (Torrent α) :=
  return (← (t.closeConn c).deletePeerConn c).2

/-- The loop of `worstBadConn` over what the heap gives up. -/
def worstBadConnLoop (t : Torrent α) (env : Surroundings α) : List (PeerConn α) →
    Option (PeerConn α)
  | [] => none
  | c :: wcs =>
    if 6 ≤ env.chunksReadWasted c ∧ env.chunksReadUseful c < env.chunksReadWasted c then some c
    else if (t.maxEstablishedConns + 1).tdiv 2 ≤ wcs.length ∧ minute < env.sinceHandshake c then
      some c
    else worstBadConnLoop t env wcs

/-- `worstBadConn` -/
def worstBadConn (t : Torrent α) (env : Surroundings α) : Option (PeerConn α) :=
  t.worstBadConnLoop env (env.worst (t.conns.filter fun c => !t.connClosed c))

/-- The loop of `addPeerConn` over the connections. -/
def dropDuplicates (env : Surroundings α) (c : PeerConn α) :
    List (PeerConn α) → Torrent α → Except Panic (Option AddError × Torrent α)
  | [], t => .ok (none, t)
  | c0 :: conns, t =>
    if c.peerID ≠ c0.peerID then dropDuplicates env c conns t
    else if !env.dropDuplicatePeerIds then dropDuplicates env c conns t
    else if c.hasPreferredNetworkOver env.multiless t.clientPeerID c0 then do
      let (_, t) ← (t.closeConn c0).deletePeerConn c0
      dropDuplicates env c conns t
    else .ok (some .existingConnectionPreferred, t)

/-- The rest of `addPeerConn`, after the loop. -/
def addWithinLimit (t : Torrent α) (env : Surroundings α) (c : PeerConn α) :
    Except Panic (Option AddError × Torrent α) := do
  let insert (t : Torrent α) : Except Panic (Option AddError × Torrent α) := do
    require (t.conns.length < t.maxEstablishedConns) (.tooManyConns t.conns.length)
    return (none, { t with conns := t.conns.insert c })
  if t.maxEstablishedConns ≤ t.conns.length then
    match t.worstBadConn env with
    | none => return (some .dontWantConns, t)
    | some worst =>
      let (_, t) ← (t.closeConn worst).deletePeerConn worst
      insert t
  else insert t

/-- `addPeerConn`, with its error -/
def addPeerConn (t : Torrent α) (env : Surroundings α) (c : PeerConn α) :
    Except Panic (Option AddError × Torrent α) := do
  if t.closed then return (some .torrentClosed, t)
  match ← dropDuplicates env c (env.order t.conns) t with
  | (some err, t) => return (some err, t)
  | (none, t) => t.addWithinLimit env c

/-- The loop of `SetMaxEstablishedConns` over what the heap gives up. -/
def dropWorst : List (PeerConn α) → Torrent α → Except Panic (Torrent α)
  | [], t => .ok t
  | c :: wcs, t =>
    if t.maxEstablishedConns < t.conns.length then do
      let t ← t.dropConnection c
      dropWorst wcs t
    else .ok t

/-- `SetMaxEstablishedConns`, with the old limit -/
def setMaxEstablishedConns (t : Torrent α) (env : Surroundings α) (max : ℤ) :
    Except Panic (ℤ × Torrent α) := do
  let oldMax := t.maxEstablishedConns
  let t := { t with maxEstablishedConns := max }
  return (oldMax, ← dropWorst (env.worst t.conns) t)

/-- `close`, which closes the connections and leaves them in the map -/
def close (t : Torrent α) : Torrent α :=
  { t with closed := true, connClosed := fun c => t.connClosed c || decide (c ∈ t.conns) }

end Torrent

/-- What happens to the connections of a torrent. -/
inductive Event (α : Type)
  | addPeerConn (env : Surroundings α) (c : PeerConn α)
  | dropConnection (c : PeerConn α)
  /-- The goroutine that writes ends. -/
  | closeConn (c : PeerConn α)
  | setMaxEstablishedConns (env : Surroundings α) (max : ℤ)
  | close

def step (t : Torrent α) : Event α → Except Panic (Torrent α)
  | .addPeerConn env c => return (← t.addPeerConn env c).2
  | .dropConnection c => t.dropConnection c
  | .closeConn c => .ok (t.closeConn c)
  | .setMaxEstablishedConns env max => return (← t.setMaxEstablishedConns env max).2
  | .close => .ok t.close

/-- The limit that the event sets is not negative. -/
def Event.NonnegLimit : Event α → Prop
  | .setMaxEstablishedConns _ max => 0 ≤ max
  | _ => True

/-- `DropDuplicatePeerIds` is set at the time of the event. -/
def Event.DropsDuplicates : Event α → Prop
  | .addPeerConn env _ => env.dropDuplicatePeerIds
  | _ => True

/-! ## What the calls do to the connections -/

/-- Connections have been taken out, nothing else. -/
structure Fewer (t t' : Torrent α) : Prop where
  conns : t'.conns.Sublist t.conns
  max : t'.maxEstablishedConns = t.maxEstablishedConns

omit [DecidableEq α] in
theorem Fewer.refl (t : Torrent α) : Fewer t t := ⟨List.Sublist.refl _, rfl⟩

variable {t t' : Torrent α} {env : Surroundings α} {wcs : List (PeerConn α)} {c : PeerConn α}
  {order : List (PeerConn α)}

omit [DecidableEq α] in
theorem Fewer.trans {t'' : Torrent α} (h : Fewer t t') (h' : Fewer t' t'') : Fewer t t'' :=
  ⟨h'.conns.trans h.conns, h'.max.trans h.max⟩

/-- The torrent after a connection has been closed and deleted. -/
def Torrent.without (t : Torrent α) (c : PeerConn α) : Torrent α :=
  { t.closeConn c with conns := t.conns.erase c }

theorem fewer_without (t : Torrent α) (c : PeerConn α) : Fewer t (t.without c) :=
  ⟨erase_sublist, rfl⟩

theorem closeConn_deletePeerConn (t : Torrent α) (c : PeerConn α) :
    (t.closeConn c).deletePeerConn c = .ok (decide (c ∈ t.conns), t.without c) := by
  unfold Torrent.deletePeerConn
  rw [require, if_pos (by simp [Torrent.closeConn])]
  rfl

theorem dropConnection_eq (t : Torrent α) (c : PeerConn α) :
    t.dropConnection c = .ok (t.without c) := by
  rw [Torrent.dropConnection, closeConn_deletePeerConn]
  rfl

/-- The loop over the connections only takes connections out. If it goes through and duplicates are
dropped, those that are left of the ones it went through are to other peers. -/
theorem dropDuplicates_ends (env : Surroundings α) (c : PeerConn α) (order : List (PeerConn α))
    (t : Torrent α) (hnodup : t.conns.Nodup) :
    Ends (fun _ => False) (fun r => Fewer t r.2 ∧ (r.1 = none → env.dropDuplicatePeerIds →
        ∀ c0 ∈ order, c0 ∈ r.2.conns → c0.peerID ≠ c.peerID))
      (Torrent.dropDuplicates env c order t) := by
  induction order generalizing t with
  | nil => exact ⟨Fewer.refl t, fun _ _ c0 h => nomatch h⟩
  | cons c0 order ih =>
    unfold Torrent.dropDuplicates
    split
    · next hne =>
      refine (ih t hnodup).imp fun r hr => ⟨hr.1, fun hnone hdrop c1 hc1 hmem => ?_⟩
      rcases mem_cons.mp hc1 with rfl | hc1
      · exact Ne.symm hne
      · exact hr.2 hnone hdrop c1 hc1 hmem
    · split
      · next hkeep =>
        exact (ih t hnodup).imp fun r hr => ⟨hr.1, fun _ hdrop => by simp [hdrop] at hkeep⟩
      · split
        · rw [closeConn_deletePeerConn]
          refine (ih _ (hnodup.erase c0)).imp fun r hr => ⟨?_, fun hnone hdrop c1 hc1 hmem => ?_⟩
          · exact (fewer_without t c0).trans hr.1
          · rcases mem_cons.mp hc1 with rfl | hc1
            · exact absurd (hr.1.conns.subset hmem) (hnodup.not_mem_erase)
            · exact hr.2 hnone hdrop c1 hc1 hmem
        · exact ⟨Fewer.refl t, fun hnone => nomatch hnone⟩

omit [DecidableEq α] in
theorem worstBadConnLoop_mem (h : t.worstBadConnLoop env wcs = some c) : c ∈ wcs := by
  induction wcs with
  | nil => cases h
  | cons c0 wcs ih =>
    unfold Torrent.worstBadConnLoop at h
    split at h
    · exact Option.some.inj h ▸ mem_cons_self
    · split at h
      · exact Option.some.inj h ▸ mem_cons_self
      · exact mem_cons_of_mem c0 (ih h)

omit [DecidableEq α] in
theorem worstBadConn_mem (h : t.worstBadConn env = some c) : c ∈ t.conns :=
  mem_of_mem_filter ((env.worst_perm _).subset (worstBadConnLoop_mem h))

/-! ## The invariant -/

/-- The limit holds. -/
structure Inv (t : Torrent α) : Prop where
  nodup : t.conns.Nodup
  nonneg : 0 ≤ t.maxEstablishedConns
  le : t.conns.length ≤ t.maxEstablishedConns

/-- No two connections are to the same peer. -/
def Distinct (t : Torrent α) : Prop := (t.conns.map (·.peerID)).Nodup

omit [DecidableEq α] in
theorem Inv.fewer (h : Inv t) (hf : Fewer t t') : Inv t' where
  nodup := h.nodup.sublist hf.conns
  nonneg := hf.max ▸ h.nonneg
  le := by
    rw [hf.max]
    exact (Int.ofNat_le.mpr hf.conns.length_le).trans h.le

omit [DecidableEq α] in
theorem Distinct.fewer (h : Distinct t) (hf : Fewer t t') : Distinct t' :=
  h.sublist (hf.conns.map _)

theorem inv_insert (h : Inv t) (hlt : t.conns.length < t.maxEstablishedConns) (c : PeerConn α) :
    Inv { t with conns := t.conns.insert c } where
  nodup := h.nodup.insert
  nonneg := h.nonneg
  le := by
    have hlen : (t.conns.insert c).length ≤ t.conns.length + 1 := by
      rw [length_insert]
      split <;> omega
    dsimp only
    omega

theorem distinct_insert (h : Distinct t) (hc : ∀ c0 ∈ t.conns, c0.peerID ≠ c.peerID) :
    Distinct { t with conns := t.conns.insert c } := by
  have hnew : c ∉ t.conns := fun hmem => hc c hmem rfl
  unfold Distinct
  rw [insert_of_not_mem hnew, map_cons, nodup_cons]
  refine ⟨fun hmem => ?_, h⟩
  obtain ⟨c0, hc0, heq⟩ := mem_map.mp hmem
  exact hc c0 hc0 heq

theorem addWithinLimit_ends (h : Inv t) (env : Surroundings α) (c : PeerConn α) :
    Ends (fun _ => False) (fun r => Inv r.2 ∧
        (Distinct t → (∀ c0 ∈ t.conns, c0.peerID ≠ c.peerID) → Distinct r.2))
      (t.addWithinLimit env c) := by
  unfold Torrent.addWithinLimit
  dsimp only
  split
  · next hfull =>
    split
    · exact ⟨h, fun hd _ => hd⟩
    · next worst hworst =>
      have hmem := worstBadConn_mem hworst
      rw [closeConn_deletePeerConn]
      have hfewer := fewer_without t worst
      refine Ends.require (fun hlt => ?_) fun hlt => ?_
      · exact ⟨inv_insert (h.fewer hfewer) hlt c, fun hd hc => distinct_insert (hd.fewer hfewer)
          fun c0 hc0 => hc c0 (hfewer.conns.subset hc0)⟩
      · -- one connection less than the limit
        have hlen : (t.without worst).conns.length = t.conns.length - 1 :=
          length_erase_of_mem hmem
        have hpos := length_pos_of_mem hmem
        have hle := h.le
        rw [hlen, hfewer.max] at hlt
        omega
  · next hroom =>
    refine Ends.require (fun hlt => ?_) fun hlt => hlt (not_le.mp hroom)
    exact ⟨inv_insert h hlt c, fun hd hc => distinct_insert hd hc⟩

theorem addPeerConn_ends (h : Inv t) (env : Surroundings α) (c : PeerConn α) :
    Ends (fun _ => False)
      (fun r => Inv r.2 ∧ (Distinct t → env.dropDuplicatePeerIds → Distinct r.2))
      (t.addPeerConn env c) := by
  unfold Torrent.addPeerConn
  split
  · exact ⟨h, fun hd _ => hd⟩
  · refine (dropDuplicates_ends env c (env.order t.conns) t h.nodup).bind ?_
    rintro ⟨err, t'⟩ ⟨hfewer, hothers⟩
    cases err with
    | some err => exact ⟨h.fewer hfewer, fun hd _ => hd.fewer hfewer⟩
    | none =>
      refine (addWithinLimit_ends (h.fewer hfewer) env c).imp fun r hr => ⟨hr.1, fun hd hdrop => ?_⟩
      refine hr.2 (hd.fewer hfewer) fun c0 hc0 => hothers rfl hdrop c0 ?_ hc0
      exact (env.order_perm _).symm.subset (hfewer.conns.subset hc0)

/-- The heap has every connection, so the loop ends when the limit holds. -/
theorem dropWorst_ends (hperm : t.conns.Perm wcs) (hnonneg : 0 ≤ t.maxEstablishedConns) :
    Ends (fun _ => False)
      (fun t' => Fewer t t' ∧ t'.conns.length ≤ t'.maxEstablishedConns)
      (Torrent.dropWorst wcs t) := by
  induction wcs generalizing t with
  | nil =>
    refine ⟨Fewer.refl t, ?_⟩
    rw [hperm.eq_nil]
    exact hnonneg
  | cons c wcs ih =>
    unfold Torrent.dropWorst
    split
    · rw [dropConnection_eq]
      have hperm' : (t.conns.erase c).Perm wcs := by
        simpa using hperm.erase c
      exact (ih (t := t.without c) hperm' hnonneg).imp
        fun t' ht' => ⟨(fewer_without t c).trans ht'.1, ht'.2⟩
    · next hle => exact ⟨Fewer.refl t, not_lt.mp hle⟩

theorem setMaxEstablishedConns_ends (h : t.conns.Nodup) (env : Surroundings α) {max : ℤ}
    (hmax : 0 ≤ max) :
    Ends (fun _ => False) (fun r => Inv r.2 ∧ (Distinct t → Distinct r.2))
      (t.setMaxEstablishedConns env max) := by
  unfold Torrent.setMaxEstablishedConns
  refine (dropWorst_ends (t := { t with maxEstablishedConns := max })
    (env.worst_perm _).symm hmax).bind fun t' ht' => ?_
  refine ⟨⟨h.sublist ht'.1.conns, ht'.1.max ▸ hmax, ht'.2⟩, fun hd => ?_⟩
  exact List.Nodup.sublist (ht'.1.conns.map _) hd

theorem step_ends (h : Inv t) (e : Event α) (hlimit : e.NonnegLimit) :
    Ends (fun _ => False) (fun t' => Inv t' ∧ (Distinct t → e.DropsDuplicates → Distinct t'))
      (step t e) := by
  cases e with
  | addPeerConn env c => exact (addPeerConn_ends h env c).bind fun r hr => hr
  | dropConnection c =>
    have hfewer := fewer_without t c
    rw [step, dropConnection_eq]
    exact ⟨h.fewer hfewer, fun hd _ => hd.fewer hfewer⟩
  | closeConn c => exact ⟨⟨h.nodup, h.nonneg, h.le⟩, fun hd _ => hd⟩
  | setMaxEstablishedConns env max =>
    exact (setMaxEstablishedConns_ends h.nodup env hlimit).bind fun r hr =>
      ⟨hr.1, fun hd _ => hr.2 hd⟩
  | close => exact ⟨⟨h.nodup, h.nonneg, h.le⟩, fun hd _ => hd⟩

theorem run_ends (h : Inv t) (events : List (Event α)) (hlimits : ∀ e ∈ events, e.NonnegLimit) :
    Ends (fun _ => False)
      (fun t' => Inv t' ∧ (Distinct t → (∀ e ∈ events, e.DropsDuplicates) → Distinct t'))
      (run step t events) := by
  induction events generalizing t with
  | nil => exact ⟨h, fun hd _ => hd⟩
  | cons e events ih =>
    rw [forall_mem_cons] at hlimits
    rw [run, foldlM_cons]
    refine (step_ends h e hlimits.1).bind fun t' ht' => ?_
    refine (ih ht'.1 hlimits.2).imp fun t'' ht'' => ⟨ht''.1, fun hd hdrops => ?_⟩
    rw [forall_mem_cons] at hdrops
    exact ht''.2 (ht'.2 hd hdrops.1) hdrops.2

omit [DecidableEq α] in
theorem inv_init (clientPeerID : PeerID) {establishedConnsPerTorrent : ℤ}
    (h : 0 ≤ establishedConnsPerTorrent) :
    Inv (Torrent.init (α := α) clientPeerID establishedConnsPerTorrent) :=
  ⟨nodup_nil, h, h⟩

/-- **The limits of the established connections**: for every sequence of calls with limits that are
not negative, nothing panics, there are no more connections than the limit, and no two of them are
to the same peer if `DropDuplicatePeerIds` is set throughout. -/
theorem conns_within_limit (clientPeerID : PeerID) (establishedConnsPerTorrent : ℤ)
    (hinit : 0 ≤ establishedConnsPerTorrent) (events : List (Event α))
    (hlimits : ∀ e ∈ events, e.NonnegLimit) :
    ∃ t, run step (Torrent.init clientPeerID establishedConnsPerTorrent) events = .ok t ∧
      t.conns.length ≤ t.maxEstablishedConns ∧
      ((∀ e ∈ events, e.DropsDuplicates) → (t.conns.map (·.peerID)).Nodup) := by
  have h := run_ends (inv_init clientPeerID hinit) events hlimits
  cases hrun : run step (Torrent.init clientPeerID establishedConnsPerTorrent) events with
  | error p =>
    rw [hrun] at h
    exact False.elim h
  | ok t =>
    rw [hrun] at h
    exact ⟨t, rfl, h.1.le, h.2 nodup_nil⟩

/-- Connections in the order in which they were added, none of them bad. -/
def plainSurroundings : Surroundings α where
  multiless := .ordering
  dropDuplicatePeerIds := true
  order := id
  order_perm := List.Perm.refl
  worst := id
  worst_perm := List.Perm.refl
  chunksReadWasted := fun _ => 0
  chunksReadUseful := fun _ => 0
  sinceHandshake := fun _ => 0

/-- A client that takes one connection, and none in the end. -/
theorem conns_within_limit_two :
    ∃ t, run step (Torrent.init [5] 1)
        [.addPeerConn plainSurroundings ⟨1, [7], true, false, false, 0⟩,
          .addPeerConn plainSurroundings ⟨2, [8], true, false, false, 1⟩,
          .setMaxEstablishedConns plainSurroundings 0] = .ok t ∧
      t.conns.length ≤ t.maxEstablishedConns ∧
      ((∀ e ∈ [Event.addPeerConn plainSurroundings ⟨1, [7], true, false, false, 0⟩,
          .addPeerConn plainSurroundings ⟨2, [8], true, false, false, 1⟩,
          .setMaxEstablishedConns plainSurroundings 0], e.DropsDuplicates) →
        (t.conns.map (·.peerID)).Nodup) :=
  conns_within_limit [5] 1 (by decide) _ (by simp [Event.NonnegLimit])

/-! ## Two connections between the same clients -/

/-- A torrent that is open, has room for a connection and none to the remote peer. -/
structure Meeting (t : Torrent α) (remote : PeerID) : Prop where
  isOpen : t.closed = false
  room : t.conns.length < t.maxEstablishedConns
  noOther : ∀ c ∈ t.conns, c.peerID ≠ remote

theorem dropDuplicates_of_ne (h : ∀ c0 ∈ order, c0.peerID ≠ c.peerID) :
    Torrent.dropDuplicates env c order t = .ok (none, t) := by
  induction order with
  | nil => rfl
  | cons c0 order ih =>
    rw [forall_mem_cons] at h
    rw [Torrent.dropDuplicates, if_pos h.1.symm, ih h.2]

theorem dropDuplicates_of_one (hdrop : env.dropDuplicatePeerIds) {c0 : PeerConn α}
    (h : order.filter (·.peerID = c.peerID) = [c0]) :
    Torrent.dropDuplicates env c order t =
      if c.hasPreferredNetworkOver env.multiless t.clientPeerID c0 then
        .ok (none, t.without c0)
      else .ok (some .existingConnectionPreferred, t) := by
  induction order with
  | nil => cases h
  | cons c1 order ih =>
    unfold Torrent.dropDuplicates
    by_cases hid : c1.peerID = c.peerID
    · rw [filter_cons_of_pos (by simpa using hid), cons.injEq] at h
      obtain ⟨rfl, hrest⟩ := h
      have hothers : ∀ c0 ∈ order, c0.peerID ≠ c.peerID := by
        simpa using filter_eq_nil_iff.mp hrest
      rw [if_neg (not_not.mpr hid.symm), if_neg (by simp [hdrop]), closeConn_deletePeerConn]
      exact if_congr Iff.rfl (dropDuplicates_of_ne hothers) rfl
    · rw [filter_cons_of_neg (by simpa using hid)] at h
      rw [if_pos fun heq => hid heq.symm, ih h]

omit [DecidableEq α] in
theorem hasPreferredNetworkOver_of_direction {ml : Multiless} {clientPeerID : PeerID}
    {l r : PeerConn α}
    (h : l.isPreferredDirection clientPeerID ≠ r.isPreferredDirection clientPeerID) :
    l.hasPreferredNetworkOver ml clientPeerID r = l.isPreferredDirection clientPeerID := by
  rw [PeerConn.hasPreferredNetworkOver, Multiless.less_eq, Computation.result_cons]
  cases hl : l.isPreferredDirection clientPeerID <;>
    cases hr : r.isPreferredDirection clientPeerID
  · exact absurd (hl.trans hr.symm) h
  · rfl
  · rfl
  · exact absurd (hl.trans hr.symm) h

theorem addWithinLimit_of_room (h : t.conns.length < t.maxEstablishedConns) (env : Surroundings α)
    (c : PeerConn α) :
    t.addWithinLimit env c = .ok (none, { t with conns := t.conns.insert c }) := by
  unfold Torrent.addWithinLimit
  dsimp only
  rw [if_neg (not_le.mpr h), require, if_pos h]
  rfl

section Meeting

variable {t : Torrent α} {remote : PeerID} {c c' : PeerConn α} {env' : Surroundings α}

omit [DecidableEq α] in
theorem Meeting.not_mem (h : Meeting t remote) (hc : c.peerID = remote) : c ∉ t.conns :=
  fun hmem => h.noOther c hmem hc

theorem Meeting.addPeerConn_first (h : Meeting t remote) (env : Surroundings α)
    (hc : c.peerID = remote) :
    t.addPeerConn env c = .ok (none, { t with conns := c :: t.conns }) := by
  have hothers : ∀ c0 ∈ env.order t.conns, c0.peerID ≠ c.peerID :=
    fun c0 hc0 => hc ▸ h.noOther c0 ((env.order_perm _).subset hc0)
  unfold Torrent.addPeerConn
  rw [if_neg (ne_true_of_eq_false h.isOpen), dropDuplicates_of_ne hothers]
  refine (addWithinLimit_of_room h.room env c).trans ?_
  rw [insert_of_not_mem (h.not_mem hc)]

theorem Meeting.addPeerConn_second (h : Meeting t remote) (hc : c.peerID = remote)
    (hc' : c'.peerID = remote) (hdrop : env'.dropDuplicatePeerIds)
    (hdir : c'.isPreferredDirection t.clientPeerID ≠ c.isPreferredDirection t.clientPeerID) :
    ∃ r, Torrent.addPeerConn { t with conns := c :: t.conns } env' c' = .ok r ∧
      r.2.conns = if c'.isPreferredDirection t.clientPeerID then c' :: t.conns
        else c :: t.conns := by
  have hone : (env'.order (c :: t.conns)).filter (·.peerID = c'.peerID) = [c] := by
    have hperm := (env'.order_perm (c :: t.conns)).filter (·.peerID = c'.peerID)
    have hothers : t.conns.filter (·.peerID = c'.peerID) = [] := by
      simpa [hc'] using h.noOther
    rwa [filter_cons_of_pos (by simp [hc, hc']), hothers, perm_singleton] at hperm
  have hfirst : Torrent.without { t with conns := c :: t.conns } c =
      { t.closeConn c with conns := t.conns } := by
    unfold Torrent.without
    rw [erase_cons_head]
    rfl
  unfold Torrent.addPeerConn
  rw [if_neg (ne_true_of_eq_false h.isOpen), dropDuplicates_of_one hdrop hone,
    hasPreferredNetworkOver_of_direction hdir, hfirst]
  cases hpref : c'.isPreferredDirection t.clientPeerID with
  | false => exact ⟨_, rfl, rfl⟩
  | true =>
    have hroom :=
      addWithinLimit_of_room (t := { t.closeConn c with conns := t.conns }) h.room env' c'
    exact ⟨_, hroom, insert_of_not_mem (h.not_mem hc')⟩

theorem Meeting.kept (h : Meeting t remote) (env : Surroundings α) (hc : c.peerID = remote)
    (hc' : c'.peerID = remote) (hdrop : env'.dropDuplicatePeerIds)
    (hout : c'.outgoing ≠ c.outgoing) :
    ∃ t', run step t [.addPeerConn env c, .addPeerConn env' c'] = .ok t' ∧
      (c ∈ t'.conns ↔ c.isPreferredDirection t.clientPeerID) ∧
      (c' ∈ t'.conns ↔ c'.isPreferredDirection t.clientPeerID) := by
  have hne : c' ≠ c := fun heq => hout (heq ▸ rfl)
  have hdir : c'.isPreferredDirection t.clientPeerID ≠ c.isPreferredDirection t.clientPeerID := by
    unfold PeerConn.isPreferredDirection
    rw [hc, hc']
    revert hout
    cases decide (t.clientPeerID < remote) <;> cases c'.outgoing <;> cases c.outgoing <;> simp
  obtain ⟨r, hr, hconns⟩ := h.addPeerConn_second hc hc' hdrop hdir
  refine ⟨r.2, ?_, ?_⟩
  · rw [run, foldlM_cons, step, h.addPeerConn_first env hc]
    change (step { t with conns := c :: t.conns } _ >>= _) = _
    rw [step, hr]
    rfl
  · rw [hconns]
    have hnot := h.not_mem hc
    have hnot' := h.not_mem hc'
    cases hpref : c'.isPreferredDirection t.clientPeerID with
    | false => simp_all
    | true => simp_all [hne.symm]

end Meeting

/-- **Both ends keep the same connection**: `a` and `b` are the two ends of two connections, of
which the one under `true` was initiated by the client that has the ends `a`. Whichever one each
client adds first, they are left with the same. -/
theorem same_connection_kept (tA tB : Torrent α) (hne : tA.clientPeerID ≠ tB.clientPeerID)
    (hA : Meeting tA tB.clientPeerID) (hB : Meeting tB tA.clientPeerID)
    (a b : Bool → PeerConn α)
    (ha : ∀ l, (a l).peerID = tB.clientPeerID ∧ (a l).outgoing = l)
    (hb : ∀ l, (b l).peerID = tA.clientPeerID ∧ (b l).outgoing = !l)
    (envA envA' envB envB' : Surroundings α) (hdropA : envA'.dropDuplicatePeerIds)
    (hdropB : envB'.dropDuplicatePeerIds) (firstA firstB : Bool) :
    ∃ tA' tB' kept,
      run step tA [.addPeerConn envA (a firstA), .addPeerConn envA' (a !firstA)] = .ok tA' ∧
      run step tB [.addPeerConn envB (b firstB), .addPeerConn envB' (b !firstB)] = .ok tB' ∧
      (∀ l, a l ∈ tA'.conns ↔ l = kept) ∧ (∀ l, b l ∈ tB'.conns ↔ l = kept) := by
  obtain ⟨tA', hrunA, hkeptA⟩ :=
    hA.kept envA (ha firstA).1 (ha !firstA).1 hdropA (by simp [ha])
  obtain ⟨tB', hrunB, hkeptB⟩ :=
    hB.kept envB (hb firstB).1 (hb !firstB).1 hdropB (by simp [hb])
  refine ⟨tA', tB', decide (tA.clientPeerID < tB.clientPeerID), hrunA, hrunB, ?_, ?_⟩
  · have hpref : ∀ l, (a l).isPreferredDirection tA.clientPeerID ↔
        l = decide (tA.clientPeerID < tB.clientPeerID) := by
      intro l
      rw [PeerConn.isPreferredDirection, (ha l).1, (ha l).2, beq_iff_eq, eq_comm]
    cases firstA <;> simp_all
  · -- the order of the ids is the other way round, and so is the direction
    have hpref : ∀ l, (b l).isPreferredDirection tB.clientPeerID ↔
        l = decide (tA.clientPeerID < tB.clientPeerID) := by
      intro l
      have horder : decide (tB.clientPeerID < tA.clientPeerID) =
          !decide (tA.clientPeerID < tB.clientPeerID) := by
        by_cases hlt : tA.clientPeerID < tB.clientPeerID
        · simp [hlt, List.lt_asymm hlt]
        · have hgt : tB.clientPeerID < tA.clientPeerID :=
            not_not.mp fun hgt => hne (List.le_antisymm hgt hlt)
          simp [hlt, hgt]
      rw [PeerConn.isPreferredDirection, (hb l).1, (hb l).2, beq_iff_eq, horder,
        Bool.not_inj_iff, eq_comm]
    cases firstB <;> simp_all

/-- Two clients without connections, the first one over TCP and IPv6, the second over uTP and IPv4;
each client adds the one that it initiated first. -/
theorem same_connection_kept_two :
    ∃ tA' tB' kept,
      run step (Torrent.init [1] 50)
        [.addPeerConn plainSurroundings ⟨0, [2], true, false, true, 0⟩,
          .addPeerConn plainSurroundings ⟨1, [2], false, true, false, 1⟩] = .ok tA' ∧
      run step (Torrent.init [2] 50)
        [.addPeerConn plainSurroundings ⟨1, [1], true, true, false, 2⟩,
          .addPeerConn plainSurroundings ⟨0, [1], false, false, true, 3⟩] = .ok tB' ∧
      (∀ l, cond l (⟨0, [2], true, false, true, 0⟩ : PeerConn ℕ) ⟨1, [2], false, true, false, 1⟩ ∈
        tA'.conns ↔ l = kept) ∧
      (∀ l, cond l (⟨0, [1], false, false, true, 3⟩ : PeerConn ℕ) ⟨1, [1], true, true, false, 2⟩ ∈
        tB'.conns ↔ l = kept) :=
  same_connection_kept (Torrent.init [1] 50) (Torrent.init [2] 50) (by decide)
    ⟨rfl, by decide, fun c hc => nomatch hc⟩ ⟨rfl, by decide, fun c hc => nomatch hc⟩
    (fun l => cond l ⟨0, [2], true, false, true, 0⟩ ⟨1, [2], false, true, false, 1⟩)
    (fun l => cond l ⟨0, [1], false, false, true, 3⟩ ⟨1, [1], true, true, false, 2⟩)
    (by decide) (by decide) plainSurroundings plainSurroundings plainSurroundings
    plainSurroundings rfl rfl true false

/-! ## The connections in the torrent as a whole -/

section Whole

variable {s s₀ : ReliableBT.Torrent} {t'' : Torrent α} {l l' : List (PeerConn α)}

/-- The torrent `s` has the connections of `t`, under the numbers of their pointers. -/
structure Mirrors (t : Torrent α) (s : ReliableBT.Torrent) : Prop where
  conns : s.avail.conns = t.conns.map (·.pointer)
  roster : RosterOf s.isConn s.avail.conns s.avail.webSeeds s.avail.peerIds
  isClosed : s.closed = t.closed

omit [DecidableEq α] in
theorem Mirrors.pointers (h : Mirrors t s) : (t.conns.map (·.pointer)).Nodup :=
  h.conns ▸ h.roster.nodup.of_append_left

/-- The peers are the same, and so are the connections. -/
def SameConns (s₀ s : ReliableBT.Torrent) : Prop :=
  SameKinds s₀ s ∧ s.avail.conns = s₀.avail.conns ∧ s.closed = s₀.closed

theorem SameConns.refl (s : ReliableBT.Torrent) : SameConns s s := ⟨.refl s, rfl, rfl⟩

theorem sameConns_reqsFree (s₀ : ReliableBT.Torrent) : ReqsFree (fun _ => True) (SameConns s₀) := {}

theorem sameConns_availFree (s₀ : ReliableBT.Torrent) :
    AvailFree (fun _ => True) (SameConns s₀) := {}

omit [DecidableEq α] in
theorem SameConns.mirrors (h : SameConns s₀ s) (hs : Mirrors t s₀) : Mirrors t s where
  conns := h.2.1.trans hs.conns
  roster := by
    have hconn : s.isConn = s₀.isConn := funext h.1.isConn
    rw [hconn, h.2.1, h.1.2.2.1, h.1.2.1]
    exact hs.roster
  isClosed := h.2.2.trans hs.isClosed

theorem map_erase_pointer {l : List (PeerConn α)} (hl : (l.map (·.pointer)).Nodup) (hc : c ∈ l) :
    (l.erase c).map (·.pointer) = (l.map (·.pointer)).erase c.pointer := by
  induction l with
  | nil => cases hc
  | cons d l ih =>
    rw [map_cons, nodup_cons] at hl
    by_cases hd : d = c
    · rw [hd, map_cons, erase_cons_head, erase_cons_head]
    · have hmem : c ∈ l := (mem_cons.mp hc).resolve_left (Ne.symm hd)
      have hne : d.pointer ≠ c.pointer := fun heq => hl.1 (heq ▸ mem_map_of_mem hmem)
      rw [erase_cons_tail (by simpa using hd), map_cons, ih hl.2 hmem, map_cons,
        erase_cons_tail (by simpa using hne)]

/-- Dropping connections in `t` leads to `t'`, and `dropConn` events lead from a torrent that has
the connections of `t` to one that has those of `t'`. -/
structure Drops (t t' : Torrent α) (l : List (PeerConn α)) : Prop where
  dropped : l ⊆ t.conns
  conns : t'.conns ⊆ t.conns
  isClosed : t'.closed = t.closed
  events : ∀ s, Mirrors t s → Gives (fun s' => Mirrors t' s' ∧ s'.avail.peerIds = s.avail.peerIds)
    (run ReliableBT.Torrent.step s (l.map fun d => .dropConn d.pointer))

omit [DecidableEq α] in
theorem Drops.refl (t : Torrent α) : Drops t t [] :=
  ⟨nil_subset _, Subset.refl _, rfl, fun _ hs => ⟨hs, rfl⟩⟩

omit [DecidableEq α] in
theorem Drops.trans (h : Drops t t' l) (h' : Drops t' t'' l') : Drops t t'' (l ++ l') where
  dropped := append_subset.mpr ⟨h.dropped, List.Subset.trans h'.dropped h.conns⟩
  conns := List.Subset.trans h'.conns h.conns
  isClosed := h'.isClosed.trans h.isClosed
  events s hs := by
    rw [run, map_append, foldlM_append]
    exact (h.events s hs).bind fun s₁ h₁ =>
      (h'.events s₁ h₁.1).imp fun s₂ h₂ => ⟨h₂.1, h₂.2.trans h₁.2⟩

theorem drops_without (hc : c ∈ t.conns) : Drops t (t.without c) [c] := by
  refine ⟨by simpa using hc, erase_subset, rfl, fun s h => ?_⟩
  have hmem : c.pointer ∈ s.avail.conns := h.conns ▸ mem_map_of_mem hc
  have hknown := h.roster.known _ (mem_append_left _ hmem)
  have hconn := h.roster.conn _ hmem
  suffices hdrop : Gives (fun s' => Mirrors (t.without c) s' ∧
      s'.avail.peerIds = s.avail.peerIds) (s.step (.dropConn c.pointer)) by
    exact hdrop.bind fun s' h' => ends_ok.mpr h'
  rw [ReliableBT.Torrent.step, if_neg (by simp [hknown, hconn])]
  refine (ends_close (sameConns_reqsFree s).unbooks (sameConns_availFree s).safe
    (.refl s) c.pointer).bind fun s₁ h₁ => ?_
  refine Ends.require (fun _ => ?_) fun _ => trivial
  refine ((sameConns_reqsFree _).unbooks.deleteAllRequests (.refl _) c.pointer _).bind
    fun s₂ h₂ => ?_
  refine Ends.require (fun _ => ⟨h₂.mirrors ?_, h₂.1.2.1.trans h₁.1.2.1⟩) fun _ => trivial
  have hs₁ := h₁.mirrors h
  refine ⟨?_, hs₁.roster.erase c.pointer, hs₁.isClosed⟩
  rw [hs₁.conns]
  exact (map_erase_pointer h.pointers hc).symm

theorem dropDuplicates_drops (hnodup : order.Nodup) (hsub : order ⊆ t.conns) :
    Gives (fun r => ∃ l, Drops t r.2 l) (Torrent.dropDuplicates env c order t) := by
  induction order generalizing t with
  | nil => exact ⟨[], .refl t⟩
  | cons c0 order ih =>
    rw [nodup_cons] at hnodup
    have hrest : order ⊆ t.conns := fun d hd => hsub (mem_cons_of_mem c0 hd)
    unfold Torrent.dropDuplicates
    split_ifs
    · exact ih hnodup.2 hrest
    · exact ih hnodup.2 hrest
    · rw [closeConn_deletePeerConn]
      have hleft : order ⊆ (t.without c0).conns := by
        intro d hd
        have hne : d ≠ c0 := fun heq => hnodup.1 (heq ▸ hd)
        exact (mem_erase_of_ne hne).mpr (hrest hd)
      refine (ih hnodup.2 hleft).imp fun r hr => ?_
      exact hr.elim fun l hl => ⟨c0 :: l, (drops_without (hsub mem_cons_self)).trans hl⟩
    · exact ⟨[], .refl t⟩

theorem addWithinLimit_drops : Gives (fun r => ∃ l t', Drops t t' l ∧
    r.2 = if r.1 = none then { t' with conns := t'.conns.insert c } else t')
    (t.addWithinLimit env c) := by
  unfold Torrent.addWithinLimit
  dsimp only
  split
  · split
    · exact ⟨[], t, .refl t, rfl⟩
    · next worst hworst =>
      rw [closeConn_deletePeerConn]
      refine Ends.require (fun _ => ?_) fun _ => trivial
      exact ⟨[worst], t.without worst, drops_without (worstBadConn_mem hworst), rfl⟩
  · exact Ends.require (fun _ => ⟨[], t, .refl t, rfl⟩) fun _ => trivial

theorem Mirrors.addConn (h : Mirrors t s) (hopen : t.closed = false)
    (hnew : c.pointer ∉ s.avail.peerIds) (fast transmission : Bool) (addr : Option (Nat × Nat)) :
    Gives (Mirrors { t with conns := t.conns.insert c })
      (s.step (.addConn c.pointer fast transmission addr)) := by
  have hadded : c ∉ t.conns := fun hmem =>
    hnew (h.roster.known _ (mem_append_left _ (h.conns ▸ mem_map_of_mem hmem)))
  rw [ReliableBT.Torrent.step, if_neg (by simp [hnew, h.isClosed, hopen]), addPeerConn_eq]
  refine SameConns.mirrors ((sameConns_reqsFree _).peerConnAdded (.refl _)) ⟨?_, ?_, h.isClosed⟩
  · rw [insert_of_not_mem hadded, map_cons, ← h.conns]
    rfl
  · refine h.roster.addConn hnew (fun q hq =>
      newPeer_isConn s _ (.conn fast transmission) addr 250 true hq) ?_
    simp [Torrent.isConn, Torrent.connJoined, Torrent.newPeer]

/-- **`addPeerConn` in the torrent as a whole**: if the torrent has the connections of `t`, it has
those that the call leaves after `dropConn` for each that was taken out and, unless the call fails,
`addConn` for the new one. -/
theorem addPeerConn_events (h : Mirrors t s) (env : Surroundings α)
    (hnew : c.pointer ∉ s.avail.peerIds) (fast transmission : Bool) (addr : Option (Nat × Nat)) :
    Gives (fun r => ∃ l ⊆ t.conns, Gives (Mirrors r.2)
      (run ReliableBT.Torrent.step s (l.map (fun d => .dropConn d.pointer) ++
        if r.1 = none then [.addConn c.pointer fast transmission addr] else [])))
      (t.addPeerConn env c) := by
  unfold Torrent.addPeerConn
  split
  · exact ⟨[], nil_subset _, h⟩
  · next hopen =>
    have hnodup := (env.order_perm _).nodup_iff.mpr h.pointers.of_map
    refine (dropDuplicates_drops hnodup (env.order_perm _).subset).bind ?_
    rintro ⟨_ | err, t₁⟩ ⟨l, hl⟩
    · refine addWithinLimit_drops.imp fun r hr => ?_
      obtain ⟨l', t₂, hl', hr⟩ := hr
      have hboth := hl.trans hl'
      refine ⟨l ++ l', hboth.dropped, ?_⟩
      rw [run, foldlM_append]
      refine (hboth.events s h).bind fun s' hs' => ?_
      split_ifs at hr ⊢
      · refine (hs'.1.addConn ?_ (hs'.2 ▸ hnew) fast transmission addr).bind fun s'' h'' => hr ▸ h''
        exact hboth.isClosed.trans (eq_false_of_ne_true hopen)
      · exact hr ▸ hs'.1
    · refine ⟨l, hl.dropped, ?_⟩
      rw [run, foldlM_append]
      exact (hl.events s h).bind fun s' hs' => ends_ok.mpr hs'.1

end Whole

end ReliableBT.Established
