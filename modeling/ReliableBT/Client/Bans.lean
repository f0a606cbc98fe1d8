import ReliableBT.Client.IpList
import ReliableBT.Lib.IpText

/-!
# Bans (`client.go`, `torrent.go`)

A client keeps the addresses it has banned in `badPeerIPs`, a map with `netip.Addr` keys. There an
IPv4 address of 4 bytes and the same address mapped into 16 bytes are two keys, and the functions
that use the map do not agree on one of them:

* `banPeerIP` and `badPeerIPPort` take the bytes they are given;
* an address that was read from a text with `net.ParseIP` (`remoteIp`) has 16 bytes;
* `dropBannedPeers` writes such an address to a text and reads that with `netip.ParseAddr`, which
  gives the 4 bytes of an IPv4 address.

A function that can panic returns an option, none for the panic.

* `ban_applies_iff`: when a ban of one form of an address holds for another form, and for the peers
  of a torrent.
-/

open Option List

namespace ReliableBT.Bans

open ReliableBT.Bencode ReliableBT.Ip ReliableBT.Decimal

/-- `netip.AddrFromSlice`, as the bytes of the address -/
def addrFromSlice (ip : Str) : Option Str :=
  if ip.length = 4 ∨ ip.length = 16 then some ip else none

/-- A connection or a web seed, with the text of its `RemoteAddr`; a web seed whose URL cannot be
parsed has none. -/
structure Peer where
  remoteAddr : Option Str
  webseed : Bool := false
  deriving DecidableEq

/-- The host of `net.SplitHostPort`, empty with an error. -/
def host (addr : Str) : Str := ((splitHostPort addr).map Prod.fst).getD []

/-- `remoteIp`: a nil address is none inside, the nil `RemoteAddr` is a panic -/
def Peer.remoteIp (p : Peer) : Option (Option Str) :=
  p.remoteAddr.map fun addr => parseIP (host addr)

/-- The peers of a torrent in the order of `iterPeers`. -/
abbrev Peers := List Peer

/-- `iterPeers` with a function that drops some of the peers: the `drop` of a connection removes it,
the `drop` of a web seed does nothing. -/
def dropWhere (f : Peer → Option Bool) : Peers → Option Peers
  | [] => some []
  | p :: t => do
    let hit ← f p
    let t ← dropWhere f t
    return if hit && !p.webseed then t else p :: t

/-- `Client` -/
structure Client where
  dopplegangerAddrs : List Str := []
  ipBlockList : Option (List IpList.Range) := none
  badPeerIPs : List Str := []
  torrents : List Peers := []
  deriving DecidableEq

namespace Client

/-- `ipBlockRange`, only `blocked` -/
def ipIsBlocked (cl : Client) (ip : Str) : Bool :=
  match cl.ipBlockList with
  | none => false
  | some ranges => (IpList.lookup ranges ip).2

/-- `dopplegangerAddr` -/
def dopplegangerAddr (cl : Client) (addr : Str) : Bool := decide (addr ∈ cl.dopplegangerAddrs)

/-- `badPeerIPPort` -/
def badPeerIPPort (cl : Client) (ip : Option Str) (port : ℤ) : Option Bool :=
  match ip with
  | none => some true
  | some ip =>
    if port = 0 then some true
    else if cl.dopplegangerAddr (joinHostPort (ipString ip) (formatInt port)) then some true
    else if cl.ipIsBlocked ip then some true
    else (addrFromSlice ip).map fun addr => decide (addr ∈ cl.badPeerIPs)

/-- `banPeerIP` -/
def banPeerIP (cl : Client) (ip : Str) : Option Client := do
  let addr ← addrFromSlice ip
  let torrents ← cl.torrents.mapM
    (dropWhere fun p => p.remoteIp.map fun r => r.any fun r => decide (SameIP r ip))
  return { cl with badPeerIPs := addr :: cl.badPeerIPs, torrents }

/-- `dropBannedPeers`: the peers that are left -/
def dropBannedPeers (cl : Client) (t : Peers) : Option Peers :=
  dropWhere (fun p => p.remoteIp.bind fun
    | none => some false
    | some ip => (parseAddr (ipString ip)).map fun addr => decide (addr ∈ cl.badPeerIPs)) t

end Client

/-! ## What each function does -/

variable {f : Peer → Option Bool} {t : Peers} {ip : Str} {p : Peer} {cl : Client}

/-- The peers that `iterPeers` reaches are all asked, and of the hits only web seeds stay. -/
theorem dropWhere_eq_some_iff {t' : Peers} :
    dropWhere f t = some t' ↔ (∀ p ∈ t, (f p).isSome) ∧
      t' = t.filter fun p => !((f p).getD false && !p.webseed) := by
  induction t generalizing t' with
  | nil =>
    rw [dropWhere, some.injEq]
    exact ⟨fun h => ⟨nofun, h.symm⟩, fun h => h.2.symm⟩
  | cons p t ih =>
    rw [dropWhere]
    cases hf : f p with
    | none =>
      refine iff_of_false nofun fun h => ?_
      have := h.1 p mem_cons_self
      rw [hf] at this
      cases this
    | some hit =>
      have hcons : (∀ q ∈ p :: t, (f q).isSome) ↔ ∀ q ∈ t, (f q).isSome := by
        simp [hf]
      have hfilter : (p :: t).filter (fun p => !((f p).getD false && !p.webseed)) =
          if hit && !p.webseed then t.filter fun p => !((f p).getD false && !p.webseed)
          else p :: t.filter fun p => !((f p).getD false && !p.webseed) := by
        rw [filter_cons, hf, getD_some]
        cases hit && !p.webseed <;> rfl
      rw [hcons, hfilter, bind_eq_bind, bind_some]
      constructor
      · intro h
        obtain ⟨u, hu, h⟩ := bind_eq_some_iff.mp h
        obtain ⟨hall, rfl⟩ := ih.mp hu
        exact ⟨hall, (some.inj h).symm⟩
      · rintro ⟨hall, rfl⟩
        exact bind_eq_some_iff.mpr ⟨_, ih.mpr ⟨hall, rfl⟩, rfl⟩

theorem exists_dropWhere : (∃ t', dropWhere f t = some t') ↔ ∀ p ∈ t, (f p).isSome :=
  ⟨fun ⟨_, h⟩ => (dropWhere_eq_some_iff.mp h).1, fun h => ⟨_, dropWhere_eq_some_iff.mpr ⟨h, rfl⟩⟩⟩

theorem exists_mapM {α β : Type} {f : α → Option β} {l : List α} :
    (∃ ys, l.mapM f = some ys) ↔ ∀ x ∈ l, ∃ y, f x = some y := by
  induction l with
  | nil => simp
  | cons x l ih =>
    rw [forall_mem_cons, ← ih, mapM_cons]
    constructor
    · rintro ⟨ys, h⟩
      obtain ⟨y, hy, h⟩ := bind_eq_some_iff.mp h
      obtain ⟨ys, hys, -⟩ := bind_eq_some_iff.mp h
      exact ⟨⟨y, hy⟩, ys, hys⟩
    · rintro ⟨⟨y, hy⟩, ys, hys⟩
      exact ⟨y :: ys, by rw [hy, hys]; rfl⟩

theorem addrFromSlice_of_length (h : ip.length = 4 ∨ ip.length = 16) :
    addrFromSlice ip = some ip := if_pos h

theorem length_remoteIp (h : p.remoteIp = some (some ip)) : ip.length = 16 := by
  obtain ⟨addr, -, haddr⟩ := map_eq_some_iff.mp h
  exact length_parseIP haddr

theorem isSome_remoteIp (p : Peer) : p.remoteIp.isSome = p.remoteAddr.isSome := by
  rw [Peer.remoteIp, isSome_map]

namespace Client

variable {cl cl' : Client} {ip : Str}

theorem banPeerIP_eq_some_iff (h : ip.length = 4 ∨ ip.length = 16) :
    (∃ cl', cl.banPeerIP ip = some cl') ↔ ∀ t ∈ cl.torrents, ∀ p ∈ t, p.remoteAddr.isSome := by
  have hmap := @exists_mapM _ _
    (dropWhere fun p => p.remoteIp.map fun r => r.any fun r => decide (SameIP r ip)) cl.torrents
  simp only [exists_dropWhere, isSome_map, isSome_remoteIp] at hmap
  rw [← hmap, banPeerIP, addrFromSlice_of_length h, bind_eq_bind, bind_some]
  constructor
  · rintro ⟨cl', h⟩
    obtain ⟨us, hus, -⟩ := bind_eq_some_iff.mp h
    exact ⟨us, hus⟩
  · rintro ⟨us, hus⟩
    exact ⟨_, by rw [hus]; rfl⟩

theorem of_banPeerIP (h : cl.banPeerIP ip = some cl') :
    cl'.badPeerIPs = ip :: cl.badPeerIPs ∧ cl'.dopplegangerAddrs = cl.dopplegangerAddrs ∧
      cl'.ipBlockList = cl.ipBlockList := by
  obtain ⟨addr, haddr, h⟩ := bind_eq_some_iff.mp h
  obtain ⟨torrents, -, h⟩ := bind_eq_some_iff.mp h
  have hip : addr = ip := by
    rw [addrFromSlice] at haddr
    split at haddr
    · exact (some.inj haddr).symm
    · cases haddr
  cases h
  exact ⟨by rw [hip], rfl, rfl⟩

theorem badPeerIPPort_eq (h : ip.length = 4 ∨ ip.length = 16) (port : ℤ) :
    cl.badPeerIPPort (some ip) port = some (decide (port = 0 ∨
      joinHostPort (ipString ip) (formatInt port) ∈ cl.dopplegangerAddrs ∨ cl.ipIsBlocked ip ∨
      ip ∈ cl.badPeerIPs)) := by
  rw [badPeerIPPort, addrFromSlice_of_length h, dopplegangerAddr]
  split_ifs with h0 hd hb <;> simp_all

theorem dropBannedPeers_eq (t : Peers) :
    cl.dropBannedPeers t = dropWhere (fun p => p.remoteIp.map fun ip =>
      ip.any fun ip => decide (unmap ip ∈ cl.badPeerIPs)) t := by
  rw [dropBannedPeers]
  congr 1
  funext p
  cases hp : p.remoteIp with
  | none => rfl
  | some r =>
    cases r with
    | none => rfl
    | some ip =>
      dsimp only [bind_some]
      rw [parseAddr_ipString (.inr (length_remoteIp hp))]
      rfl

end Client

/-! ## When a ban holds -/

/-- The peer has this address, in some form. -/
def Peer.HasIP (p : Peer) (ip : Str) : Prop := ∃ r, p.remoteIp = some (some r) ∧ SameIP r ip

/-- The ban of `r₁` holds: it returns, the form `r₂` is refused at the port, and `dropBannedPeers`
returns and leaves no peer with the address in the torrent. -/
def Applies (cl : Client) (r₁ r₂ : Str) (port : ℤ) (t : Peers) : Prop :=
  ∃ cl', cl.banPeerIP r₁ = some cl' ∧ cl'.badPeerIPPort (some r₂) port = some true ∧
    ∃ t', cl'.dropBannedPeers t = some t' ∧ ∀ p ∈ t', ¬ p.HasIP r₁

/-- Every peer of the torrent has a `RemoteAddr`. -/
def Peers.Addressed (t : Peers) : Prop := ∀ p ∈ t, p.remoteAddr.isSome

theorem dropBannedPeers_drops_iff :
    (∃ t', cl.dropBannedPeers t = some t' ∧ ∀ p ∈ t', ¬ p.HasIP ip) ↔
      Peers.Addressed t ∧ ∀ p ∈ t, p.HasIP ip → p.webseed = false ∧ unmap ip ∈ cl.badPeerIPs := by
  simp only [Client.dropBannedPeers_eq, dropWhere_eq_some_iff, isSome_map, isSome_remoteIp]
  constructor
  · rintro ⟨t', ⟨hall, rfl⟩, hnone⟩
    refine ⟨hall, fun p hp hip => ?_⟩
    obtain ⟨r, hr, hsame⟩ := id hip
    by_contra hcon
    refine hnone p (mem_filter.mpr ⟨hp, ?_⟩) hip
    rw [hr]
    simp only [map_some, getD_some, any_some, SameIP.unmap_eq hsame]
    cases hw : p.webseed
    · simpa [hw] using hcon
    · simp
  · rintro ⟨hall, hdrop⟩
    refine ⟨_, ⟨hall, rfl⟩, fun p hp hip => ?_⟩
    obtain ⟨hmem, hstay⟩ := mem_filter.mp hp
    obtain ⟨hw, hbanned⟩ := hdrop p hmem hip
    obtain ⟨r, hr, hsame⟩ := hip
    rw [hr, hw] at hstay
    simp [SameIP.unmap_eq hsame, hbanned] at hstay

/-- **A ban holds** for a form of the address that has as many bytes as the banned one, or is
refused anyway, and for a torrent without a web seed at the address if the plain form is banned. -/
theorem ban_applies_iff {cl : Client} {r₁ r₂ : Str} {port : ℤ} {t : Peers}
    (h₁ : r₁.length = 4 ∨ r₁.length = 16) (h₂ : r₂.length = 4 ∨ r₂.length = 16)
    (hsame : SameIP r₁ r₂) :
    Applies cl r₁ r₂ port t ↔
      ((∀ u ∈ cl.torrents, Peers.Addressed u) ∧ Peers.Addressed t) ∧
      (port = 0 ∨ joinHostPort (ipString r₂) (formatInt port) ∈ cl.dopplegangerAddrs ∨
        cl.ipIsBlocked r₂ ∨ r₂.length = r₁.length ∨ r₂ ∈ cl.badPeerIPs) ∧
      ∀ p ∈ t, p.HasIP r₁ → p.webseed = false ∧ (unmap r₁ = r₁ ∨ unmap r₁ ∈ cl.badPeerIPs) := by
  have hbad : ∀ {cl'}, cl.banPeerIP r₁ = some cl' →
      (cl'.badPeerIPPort (some r₂) port = some true ↔ port = 0 ∨
        joinHostPort (ipString r₂) (formatInt port) ∈ cl.dopplegangerAddrs ∨ cl.ipIsBlocked r₂ ∨
        r₂.length = r₁.length ∨ r₂ ∈ cl.badPeerIPs) := by
    intro cl' hban
    obtain ⟨hips, hdop, hlist⟩ := Client.of_banPeerIP hban
    have hblocked : cl'.ipIsBlocked r₂ = cl.ipIsBlocked r₂ := by
      rw [Client.ipIsBlocked, hlist, Client.ipIsBlocked]
    rw [Client.badPeerIPPort_eq h₂, Option.some.injEq, decide_eq_true_iff, hips, hdop, hblocked,
      mem_cons, hsame.eq_iff_length]
  have hdrop : ∀ {cl'}, cl.banPeerIP r₁ = some cl' →
      ((∃ t', cl'.dropBannedPeers t = some t' ∧ ∀ p ∈ t', ¬ p.HasIP r₁) ↔
        Peers.Addressed t ∧ ∀ p ∈ t, p.HasIP r₁ →
          p.webseed = false ∧ (unmap r₁ = r₁ ∨ unmap r₁ ∈ cl.badPeerIPs)) := by
    intro cl' hban
    rw [dropBannedPeers_drops_iff, (Client.of_banPeerIP hban).1]
    simp only [mem_cons]
  constructor
  · rintro ⟨cl', hban, hb, hd⟩
    obtain ⟨haddr, hpeers⟩ := (hdrop hban).mp hd
    exact ⟨⟨(Client.banPeerIP_eq_some_iff h₁).mp ⟨cl', hban⟩, haddr⟩, (hbad hban).mp hb, hpeers⟩
  · rintro ⟨⟨hall, haddr⟩, hb, hpeers⟩
    obtain ⟨cl', hban⟩ := (Client.banPeerIP_eq_some_iff h₁).mpr hall
    exact ⟨cl', hban, (hbad hban).mpr hb, (hdrop hban).mpr ⟨haddr, hpeers⟩⟩

/-- The text of `1.2.3.4:80`. -/
def sampleAddr : Str := [49, 46, 50, 46, 51, 46, 52, 58, 56, 48]

/-- A ban of the 4 bytes refuses these, and drops a connection to the address. -/
theorem ban_applies_plain :
    SameIP [1, 2, 3, 4] [1, 2, 3, 4] ∧
      Applies {} [1, 2, 3, 4] [1, 2, 3, 4] 80 [{ remoteAddr := some sampleAddr }] := by
  refine ⟨.inl rfl, (ban_applies_iff (.inl rfl) (.inl rfl) (.inl rfl)).mpr
    ⟨⟨nofun, ?_⟩, .inr (.inr (.inr (.inl rfl))), ?_⟩⟩
  · intro p hp
    rw [mem_singleton.mp hp]
    rfl
  · intro p hp _
    rw [mem_singleton.mp hp]
    exact ⟨rfl, .inl rfl⟩

/-- **A ban of the 16 bytes of an IPv4 address** does not refuse its 4 bytes, and keeps a connection
to the address. -/
theorem ban_misses :
    ∃ cl', ({} : Client).banPeerIP (mapped [1, 2, 3, 4]) = some cl' ∧
      cl'.badPeerIPPort (some [1, 2, 3, 4]) 80 = some false ∧
      cl'.dropBannedPeers [{ remoteAddr := some sampleAddr }] =
        some [{ remoteAddr := some sampleAddr }] ∧
      ({ remoteAddr := some sampleAddr } : Peer).remoteIp = some (some (mapped [1, 2, 3, 4])) := by
  refine ⟨{ badPeerIPs := [mapped [1, 2, 3, 4]] }, ?_, ?_, ?_, ?_⟩
  · decide
  · decide
  · decide
  · decide

end ReliableBT.Bans
