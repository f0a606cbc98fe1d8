import ReliableBT.Lib.OrderedSet
import ReliableBT.Lib.Outcome

/-!
# The peer reserve and the baseline provider of an announce

`prioritizedPeers` (`prioritized_peers.go`) is a B-tree of the peers a torrent knows of and may
connect to. `Less` orders its items by `Trusted`, then by the priority they had when they were
added, then by a hash of the address, so the address alone does not say which item a peer has: one
address can have several items.

`announce` (`tracker_scraper.go`) adds the peers of a tracker's response. A baseline provider that
comes with the response, and is the first one (`addBaselineProvider`), is added as a trusted peer
of the maximum priority, after `DeleteBaseLineProvider` has taken out the item of that key.

* `getPrio` is the function that `newTorrentOpt` gives to the reserve; `Client.bep40Priority` is
  the priority of an address under the client's public address at the time.
* `addPeer` is modelled up to the insertion. The calls after it, which pop the items of the highest
  priority to connect to and trim those of the lowest, come later than what is said here.
* An address stands for what its `String` gives. `Client` carries that different addresses have
  different hashes.

Results:
* `mem_announce`: which items the reserve holds after an announce that stores its provider.
* `storedOnce_announce`: the provider's address has one item, the trusted one of the maximum
  priority, **iff** the torrent is open and accepts the address, every item the address had before
  has the key of the new one, and the provider is not among the peers of the response as well.
* `storedTwice`: the item of a peer that connected before it was announced stays.
-/

open List

namespace ReliableBT.Reserve

/-- `PeerSource` -/
inductive PeerSource
  | tracker
  | incoming
  | dhtGetPeers
  | dhtAnnouncePeer
  | pex
  | direct
  deriving DecidableEq, Repr

variable {α : Type}

/-- `PeerInfo` -/
structure PeerInfo (α : Type) where
  id : List UInt8
  addr : α
  source : PeerSource
  supportsEncryption : Bool
  pexPeerFlags : UInt8
  trusted : Bool
  baselineProvider : Bool
  deriving DecidableEq

/-- `PeerInfo.equal`, which leaves `BaselineProvider` out. -/
def PeerInfo.equal [DecidableEq α] (p q : PeerInfo α) : Bool :=
  decide (p.id = q.id) && decide (p.addr = q.addr) && decide (p.source = q.source) &&
    decide (p.supportsEncryption = q.supportsEncryption) &&
    decide (p.pexPeerFlags = q.pexPeerFlags) && decide (p.trusted = q.trusted)

/-- `tracker.Peer` -/
structure TrackerPeer (α : Type) where
  addr : α
  id : List UInt8
  deriving DecidableEq

/-- What the reserve and its users ask of the client. -/
structure Client (α : Type) where
  addrHash : α → Int
  addrHash_injective : Function.Injective addrHash
  /-- `bep40PriorityIgnoreError`, between the public address and the given one -/
  bep40Priority : α → Nat
  /-- `badPeerIPPort`; false for an address that has no IP and port -/
  badPeerIPPort : α → Bool

/-- `math.MaxUint32` -/
def maxUint32 : Nat := 2 ^ 32 - 1

/-- `prioritizedPeersItem` -/
structure PrioritizedPeersItem (α : Type) where
  prio : Nat
  p : PeerInfo α
  deriving DecidableEq

/-- What `Less` compares two items by. -/
def PrioritizedPeersItem.key (cl : Client α) (item : PrioritizedPeersItem α) :
    Bool ×ₗ Nat ×ₗ Int :=
  toLex (item.p.trusted, toLex (item.prio, cl.addrHash item.p.addr))

/-- `prioritizedPeers` -/
abbrev PrioritizedPeers (cl : Client α) := OrderedSet (PrioritizedPeersItem.key cl)

/-- `getPrio` of `newTorrentOpt` -/
def getPrio (cl : Client α) (p : PeerInfo α) : Nat :=
  if p.baselineProvider then maxUint32 else cl.bep40Priority p.addr

/-- The item under which a peer is added and deleted. -/
def item (cl : Client α) (p : PeerInfo α) : PrioritizedPeersItem α := ⟨getPrio cl p, p⟩

namespace PrioritizedPeers

/-- `AddReturningReplacedPeer` -/
def addReturningReplacedPeer {cl : Client α} (peers : PrioritizedPeers cl) (p : PeerInfo α) :
    Option (PeerInfo α) × PrioritizedPeers cl :=
  ((peers.find (item cl p)).map (·.p), peers.replaceOrInsert (item cl p))

/-- `DeleteBaseLineProvider` -/
def deleteBaseLineProvider {cl : Client α} (peers : PrioritizedPeers cl) (bp : PeerInfo α) :
    PrioritizedPeers cl :=
  peers.delete (item cl bp)

end PrioritizedPeers

/-- The fields of the torrent that an announce reads and writes. -/
structure Torrent (cl : Client α) where
  peers : PrioritizedPeers cl
  /-- `BaselineProvider`, `none` as long as its `IP` is nil -/
  baselineProvider : Option (TrackerPeer α)
  closed : Bool

/-- `tracker.AnnounceResponse`; the provider is `none` if its `IP` is nil. -/
structure AnnounceResponse (α : Type) where
  peers : List (TrackerPeer α)
  baselineProvider : Option (TrackerPeer α)

/-- `AppendFromTracker`, for one peer -/
def fromTracker (p : TrackerPeer α) : PeerInfo α where
  -- the copy into the array of 20 bytes
  id := (p.id ++ replicate 20 0).take 20
  addr := p.addr
  source := .tracker
  supportsEncryption := false
  pexPeerFlags := 0
  trusted := false
  baselineProvider := false

namespace Torrent

variable {cl : Client α}

/-- `addPeer`, up to the insertion: whether the peer is new, and the torrent after. -/
def addPeer [DecidableEq α] (t : Torrent cl) (p : PeerInfo α) : Bool × Torrent cl :=
  if t.closed then (false, t)
  else if cl.badPeerIPPort p.addr then (false, t)
  else
    let (replaced, peers) := t.peers.addReturningReplacedPeer p
    (replaced.all fun q => !q.equal p, { t with peers })

/-- `addPeers`, with the number of peers that are new. -/
def addPeers [DecidableEq α] (t : Torrent cl) (ps : List (PeerInfo α)) : Nat × Torrent cl :=
  ps.foldl (fun (added, t) p => let (new, t) := t.addPeer p; (added + new.toNat, t)) (0, t)

/-- `addBaselineProvider` -/
def addBaselineProvider (t : Torrent cl) (bp : TrackerPeer α) : Bool × Torrent cl :=
  if t.baselineProvider.isNone then (true, { t with baselineProvider := some bp }) else (false, t)

/-- `Trusted` and `BaselineProvider` are set on what `AppendFromTracker` gives. -/
def providerInfo (bp : TrackerPeer α) : PeerInfo α :=
  { fromTracker bp with trusted := true, baselineProvider := true }

/-- `announce`, from the response on: `NumPeers` of the result, and the torrent after. -/
def announce [DecidableEq α] (t : Torrent cl) (res : AnnounceResponse α) : Nat × Torrent cl :=
  let peerInfos := res.peers.map fromTracker
  match res.baselineProvider with
  | none => (res.peers.length, (t.addPeers peerInfos).2)
  | some bp =>
    let (stored, t) := t.addBaselineProvider bp
    if stored then
      let t := { t with peers := t.peers.deleteBaseLineProvider (providerInfo bp) }
      (res.peers.length + 1, (t.addPeers (peerInfos ++ [providerInfo bp])).2)
    else (res.peers.length, (t.addPeers peerInfos).2)

/-- The address `a` has one item: a trusted one, marked as the baseline provider, of the maximum
priority. -/
def StoredOnce [DecidableEq α] (t : Torrent cl) (a : α) : Prop :=
  ∃ item, t.peers.items.filter (fun item => decide (item.p.addr = a)) = [item] ∧
    item.p.trusted = true ∧ item.p.baselineProvider = true ∧ item.prio = maxUint32

end Torrent

/-! ## Keys -/

variable {cl : Client α}

theorem key_eq_iff {a b : PrioritizedPeersItem α} :
    a.key cl = b.key cl ↔ a.p.trusted = b.p.trusted ∧ a.prio = b.prio ∧ a.p.addr = b.p.addr := by
  simp only [PrioritizedPeersItem.key, EmbeddingLike.apply_eq_iff_eq, Prod.mk.injEq,
    cl.addrHash_injective.eq_iff]

theorem key_eq_provider_iff {a : PrioritizedPeersItem α} {bp : TrackerPeer α} :
    a.key cl = (item cl (Torrent.providerInfo bp)).key cl ↔
      a.p.trusted = true ∧ a.prio = maxUint32 ∧ a.p.addr = bp.addr := by
  rw [key_eq_iff]
  rfl

/-- A peer of the response is not trusted, so it never has the key of the provider. -/
theorem key_ordinary_ne_provider (p bp : TrackerPeer α) :
    (item cl (fromTracker p)).key cl ≠ (item cl (Torrent.providerInfo bp)).key cl := by
  rw [ne_eq, key_eq_provider_iff]
  rintro ⟨htrusted, -⟩
  exact Bool.false_ne_true htrusted

/-! ## The announce -/

namespace Torrent

variable [DecidableEq α]

/-- The torrent takes the address. -/
def Accepts (t : Torrent cl) (a : α) : Prop := t.closed = false ∧ cl.badPeerIPPort a = false

theorem closed_addPeer (t : Torrent cl) (p : PeerInfo α) : (t.addPeer p).2.closed = t.closed := by
  unfold addPeer
  split_ifs <;> rfl

variable {t : Torrent cl} {p : PeerInfo α} {a : α} {ps : List (TrackerPeer α)} {bp : TrackerPeer α}

theorem mem_addPeer {a : PrioritizedPeersItem α} :
    a ∈ (t.addPeer p).2.peers ↔
      (t.Accepts p.addr ∧ a = item cl p) ∨
        a ∈ t.peers ∧ (t.Accepts p.addr → a.key cl ≠ (item cl p).key cl) := by
  unfold addPeer Accepts
  by_cases hclosed : t.closed = true
  · simp [hclosed]
  · by_cases hbad : cl.badPeerIPPort p.addr = true
    · simp [hclosed, hbad]
    · simp [hclosed, hbad, PrioritizedPeers.addReturningReplacedPeer]

/-- No item has the address. -/
def Without (t : Torrent cl) (a : α) : Prop := ∀ i ∈ t.peers, i.p.addr ≠ a

/-- An address that is accepted has no item after `addPeer` iff it had none and is not the address
of the peer: an item goes only in favour of another one of the same address. -/
theorem without_addPeer (haccepts : t.Accepts a) :
    (t.addPeer p).2.Without a ↔ t.Without a ∧ p.addr ≠ a := by
  constructor
  · intro h
    have hp : p.addr ≠ a := by
      rintro rfl
      exact h (item cl p) (mem_addPeer.mpr (.inl ⟨haccepts, rfl⟩)) rfl
    refine ⟨fun i hi heq => h i (mem_addPeer.mpr (.inr ⟨hi, fun _ hkey => ?_⟩)) heq, hp⟩
    exact hp ((key_eq_iff.mp hkey).2.2.symm.trans heq)
  · rintro ⟨hnone, hp⟩ i hi
    rcases mem_addPeer.mp hi with ⟨-, rfl⟩ | ⟨hi, -⟩
    · exact hp
    · exact hnone i hi

theorem addPeers_eq (t : Torrent cl) (ps : List (PeerInfo α)) :
    (t.addPeers ps).2 = ps.foldl (fun t p => (t.addPeer p).2) t := by
  have hloop : ∀ (added : Nat) (t : Torrent cl),
      (ps.foldl (fun (added, t) p => let (new, t) := t.addPeer p; (added + new.toNat, t))
        (added, t)).2 = ps.foldl (fun t p => (t.addPeer p).2) t := by
    induction ps with
    | nil => exact fun _ _ => rfl
    | cons p ps ih => exact fun _ _ => ih _ _
  exact hloop 0 t

theorem closed_addPeers (t : Torrent cl) (ps : List (PeerInfo α)) :
    (t.addPeers ps).2.closed = t.closed := by
  rw [addPeers_eq]
  induction ps generalizing t with
  | nil => rfl
  | cons p ps ih => rw [foldl_cons, ih, closed_addPeer]

theorem without_addPeers {ps : List (PeerInfo α)} (haccepts : t.Accepts a) :
    (t.addPeers ps).2.Without a ↔ t.Without a ∧ ∀ p ∈ ps, p.addr ≠ a := by
  rw [addPeers_eq]
  induction ps generalizing t with
  | nil => simp
  | cons p ps ih =>
    have hstill : (t.addPeer p).2.Accepts a := ⟨(closed_addPeer t p).trans haccepts.1, haccepts.2⟩
    rw [foldl_cons, ih hstill, without_addPeer haccepts, forall_mem_cons, and_assoc]

theorem key_ne_provider_addPeers
    (h : ∀ i ∈ t.peers, i.key cl ≠ (item cl (providerInfo bp)).key cl) :
    ∀ i ∈ (t.addPeers (ps.map fromTracker)).2.peers,
      i.key cl ≠ (item cl (providerInfo bp)).key cl := by
  rw [addPeers_eq, foldl_map]
  refine foldl_keeps
    (I := fun t : Torrent cl => ∀ i ∈ t.peers, i.key cl ≠ (item cl (providerInfo bp)).key cl)
    h fun t ht p _ i hi => ?_
  rcases mem_addPeer.mp hi with ⟨-, rfl⟩ | ⟨hi, -⟩
  · exact key_ordinary_ne_provider p bp
  · exact ht i hi

/-- The torrent after the deletion. -/
def deleted (t : Torrent cl) (bp : TrackerPeer α) : Torrent cl :=
  { t with baselineProvider := some bp, peers := t.peers.deleteBaseLineProvider (providerInfo bp) }

/-- The torrent just before the provider is added. -/
def beforeProvider (t : Torrent cl) (ps : List (TrackerPeer α)) (bp : TrackerPeer α) :
    Torrent cl :=
  ((t.deleted bp).addPeers (ps.map fromTracker)).2

theorem announce_eq (hnone : t.baselineProvider = none) :
    (t.announce ⟨ps, some bp⟩).2 = ((t.beforeProvider ps bp).addPeer (providerInfo bp)).2 := by
  simp only [announce, addBaselineProvider, hnone, Option.isNone_none, if_true, beforeProvider,
    deleted, addPeers_eq, foldl_append, foldl_cons, foldl_nil]

theorem accepts_beforeProvider : (t.beforeProvider ps bp).Accepts a ↔ t.Accepts a := by
  unfold Accepts beforeProvider
  rw [closed_addPeers]
  rfl

theorem key_ne_beforeProvider (t : Torrent cl) (ps : List (TrackerPeer α)) (bp : TrackerPeer α) :
    ∀ i ∈ (t.beforeProvider ps bp).peers, i.key cl ≠ (item cl (providerInfo bp)).key cl :=
  key_ne_provider_addPeers fun _ hi => (OrderedSet.mem_delete.mp hi).2

/-- The provider's address has no other item than the provider's iff it had none of another key
and is not the address of a peer of the response. -/
theorem without_beforeProvider (haccepts : t.Accepts bp.addr) :
    (t.beforeProvider ps bp).Without bp.addr ↔
      (∀ i ∈ t.peers, i.p.addr = bp.addr → i.p.trusted = true ∧ i.prio = maxUint32) ∧
        ∀ p ∈ ps, p.addr ≠ bp.addr := by
  have hdeleted : (t.deleted bp).Accepts bp.addr := haccepts
  rw [beforeProvider, without_addPeers hdeleted, forall_mem_map]
  refine and_congr ⟨fun h i hi haddr => ?_, fun h i hi haddr => ?_⟩ Iff.rfl
  · by_contra hother
    refine h i (OrderedSet.mem_delete.mpr ⟨hi, fun hkey => hother ?_⟩) haddr
    exact ⟨(key_eq_provider_iff.mp hkey).1, (key_eq_provider_iff.mp hkey).2.1⟩
  · obtain ⟨hi, hkey⟩ := OrderedSet.mem_delete.mp hi
    obtain ⟨htrusted, hprio⟩ := h i hi haddr
    exact hkey (key_eq_provider_iff.mpr ⟨htrusted, hprio, haddr⟩)

theorem mem_announce (hnone : t.baselineProvider = none) {i : PrioritizedPeersItem α} :
    i ∈ (t.announce ⟨ps, some bp⟩).2.peers ↔
      (t.Accepts bp.addr ∧ i = item cl (providerInfo bp)) ∨ i ∈ (t.beforeProvider ps bp).peers := by
  rw [announce_eq hnone, mem_addPeer]
  refine or_congr (and_congr accepts_beforeProvider Iff.rfl) ?_
  exact and_iff_left_of_imp fun hi _ => key_ne_beforeProvider t ps bp i hi

/-- **When the provider is stored once.** -/
theorem storedOnce_announce (t : Torrent cl) (ps : List (TrackerPeer α)) (bp : TrackerPeer α)
    (hnone : t.baselineProvider = none) :
    (t.announce ⟨ps, some bp⟩).2.StoredOnce bp.addr ↔
      t.closed = false ∧ cl.badPeerIPPort bp.addr = false ∧
        (∀ i ∈ t.peers, i.p.addr = bp.addr → i.p.trusted = true ∧ i.prio = maxUint32) ∧
        ∀ p ∈ ps, p.addr ≠ bp.addr := by
  unfold StoredOnce
  simp only [OrderedSet.filter_eq_singleton, mem_announce hnone, decide_eq_true_eq]
  constructor
  · rintro ⟨only, honly, htrusted, -, hprio⟩
    obtain ⟨hmem, haddr⟩ := (honly only).mpr rfl
    -- an item like this has the key of the provider, so it is the provider's
    have haccepts : t.Accepts bp.addr := by
      rcases hmem with ⟨haccepts, -⟩ | hmem
      · exact haccepts
      · refine absurd ?_ (key_ne_beforeProvider t ps bp only hmem)
        exact key_eq_provider_iff.mpr ⟨htrusted, hprio, haddr⟩
    have hitem : item cl (providerInfo bp) = only :=
      (honly _).mp ⟨.inl ⟨haccepts, rfl⟩, rfl⟩
    refine ⟨haccepts.1, haccepts.2, (without_beforeProvider haccepts).mp fun i hi hia => ?_⟩
    have hi' : i = item cl (providerInfo bp) := ((honly i).mp ⟨.inr hi, hia⟩).trans hitem.symm
    exact key_ne_beforeProvider t ps bp i hi (congrArg _ hi')
  · rintro ⟨hopen, hgood, hfree⟩
    have haccepts : t.Accepts bp.addr := ⟨hopen, hgood⟩
    have hwithout := (without_beforeProvider haccepts).mpr hfree
    refine ⟨item cl (providerInfo bp), fun i => ⟨?_, ?_⟩, rfl, rfl, rfl⟩
    · rintro ⟨⟨-, rfl⟩ | hi, haddr⟩
      · rfl
      · exact absurd haddr (hwithout i hi)
    · rintro rfl
      exact ⟨.inl ⟨haccepts, rfl⟩, rfl⟩

/-- A client for which every address has the priority 7. -/
def smallClient : Client Nat where
  addrHash := Int.ofNat
  addrHash_injective := fun _ _ => Int.ofNat.inj
  bep40Priority := fun _ => 7
  badPeerIPPort := fun _ => false

/-- A torrent with an empty reserve. -/
def fresh : Torrent smallClient := ⟨OrderedSet.empty, none, false⟩

/-- The provider, at the address 1. -/
def provider : TrackerPeer Nat := ⟨1, []⟩

/-- The reserve already has the provider, as a peer that connected to us. -/
def connectedBefore : Torrent smallClient :=
  (fresh.addPeer { fromTracker provider with source := .incoming }).2

/-- Two other peers are in the reserve, one of them trusted. -/
def stocked : Torrent smallClient :=
  ((fresh.addPeer (fromTracker ⟨3, []⟩)).2.addPeer { fromTracker ⟨4, []⟩ with trusted := true }).2

theorem storedOnce_stocked : (stocked.announce ⟨[⟨2, []⟩], some provider⟩).2.StoredOnce 1 :=
  (storedOnce_announce stocked [⟨2, []⟩] provider rfl).mpr ⟨rfl, rfl, by decide, by decide⟩

/-- **The item that the deletion is for stays**: it was added untrusted and under another priority,
so it has another key. -/
theorem storedTwice :
    ¬ (connectedBefore.announce ⟨[], some provider⟩).2.StoredOnce 1 ∧
      ((connectedBefore.announce ⟨[], some provider⟩).2.peers.items.filter
        fun item => decide (item.p.addr = 1)).length = 2 := by
  have htwo : ((connectedBefore.announce ⟨[], some provider⟩).2.peers.items.filter
      fun item => decide (item.p.addr = 1)).length = 2 := by decide
  refine ⟨?_, htwo⟩
  rintro ⟨only, honly, -⟩
  rw [honly, length_singleton] at htwo
  exact absurd htwo (by decide)

end Torrent

end ReliableBT.Reserve
