import ReliableBT.Bencode.Panics
import ReliableBT.Bencode.Containers
import ReliableBT.Lib.Ip
import ReliableBT.Lib.Bytes

/-!
# HTTP tracker responses (`tracker/http/protocol.go`, `tracker/http/peer.go`)

An `HttpResponse` is decoded by `bencode.Unmarshal`. Its peers and its baseline providers are
`Peers`, whose `UnmarshalBencode` decodes the text it gets once more, into an `interface{}`: a
string holds compact addresses, a list holds a dictionary for each peer. `FromDictInterface` takes
these apart with type assertions, which panic with a `runtime.Error`.

The compact forms are those of the DHT package: they are parameters here, that return a value or an
error.

* `response_returns_iff`: a response makes the client panic exactly when a list of peers in it, that
  is reached without an error, has an item that is not a peer.
* `roundTrip_iff`: of the peer lists that `MarshalBencode` writes, the compact ones are read back
  (if they are no longer than a string may be), and the others are not unless they are empty: the
  address is written as bytes and read as text.
-/

namespace ReliableBT.Tracker.Http

open ReliableBT.Bencode ReliableBT.Bencode.Decoder ReliableBT.Ip ReliableBT.Bytes List Option

/-! ## Peers -/

/-- `krpc.NodeAddr` -/
structure NodeAddr where
  ip : Str
  port : ℤ
  deriving DecidableEq

/-- `Peer` -/
structure Peer where
  ip : Str := []
  port : ℤ := 0
  id : Str := []
  deriving DecidableEq

/-- `Peers` -/
structure Peers where
  list : List Peer := []
  compact : Bool := false
  deriving DecidableEq

/-- The binary form of `krpc.CompactIPv4NodeAddrs`. -/
structure CompactCodec where
  marshalBinary : List NodeAddr → Option Str
  unmarshalBinary : Str → Option (List NodeAddr)

/-- `ip` -/
def ipKey : Str := [105, 112]

/-- `peer id` -/
def peerIdKey : Str := [112, 101, 101, 114, 32, 105, 100]

/-- `port` -/
def portKey : Str := [112, 111, 114, 116]

/-- `v.(string)` -/
def asString : Option Value → Except Refusal Str
  | some (.str s) => .ok s
  | _ => .error .runtime

/-- `v.(int64)` -/
def asInt64 : Option Value → Except Refusal Int64
  | some (.int (.int64 n)) => .ok n
  | _ => .error .runtime

/-- `FromDictInterface` -/
def Peer.fromDictInterface (p : Peer) (d : List (Str × Value)) : Except Refusal Peer := do
  let ip ← asString (d.lookup ipKey)
  let p := { p with ip := (parseIP ip).getD [] }
  let p ←
    match d.lookup peerIdKey with
    | none => pure p
    | some v => do
      let id ← asString (some v)
      pure { p with id := id }
  let port ← asInt64 (d.lookup portKey)
  return { p with port := port.toInt }

/-- One item of a list of peers: `p.FromDictInterface(i.(map[string]interface{}))` -/
def Peers.appendItem (me : Peers) : Value → Except Refusal Peers
  | .dict d => do
    let p ← Peer.fromDictInterface {} d
    return { me with list := me.list ++ [p] }
  | _ => .error .runtime

/-- `UnmarshalBencode` -/
def Peers.unmarshalBencode (codec : CompactCodec) (me : Peers) (b : Str) : Except Refusal Peers :=
  match unmarshal anyTypes .iface b with
  | .error e => .error (if e.panics then .runtime else .error)
  | .ok (.iface (.str v)) =>
    match codec.unmarshalBinary v with
    | none => .error .error
    | some cnas =>
      let peers := cnas.map fun cp => { ip := cp.ip, port := cp.port }
      .ok { list := me.list ++ peers, compact := true }
  | .ok (.iface (.list v)) => v.foldlM Peers.appendItem { me with compact := false }
  | .ok _ => .error .error

/-! ## The response -/

/-- The types of the fields of an `HttpResponse`. -/
inductive ResponseType
  | string
  | int32
  | peers
  /-- `krpc.NodeAddr` -/
  | nodeAddr
  /-- `krpc.CompactIPv6NodeAddrs` -/
  | peers6

/-- The types as the decoder sees them; `compact6` is the `UnmarshalBencode` of the IPv6 addresses.
What an `UnmarshalBencode` stores is determined by the text. -/
def responseTypes (codec : CompactCodec) (compact6 : Str → Bool) :
    ResponseType → GoType ResponseType
  | .string => .string
  | .int32 => ⟨.int 32, none⟩
  | .peers => ⟨.struct [], some fun b => (Peers.unmarshalBencode codec {} b).map fun _ => .custom b⟩
  | .nodeAddr => ⟨.struct [], none⟩
  | .peers6 =>
    ⟨.slice .nodeAddr, some fun b => if compact6 b then .ok (.custom b) else .error .error⟩

/-- `interval` -/
def intervalKey : Str := [105, 110, 116, 101, 114, 118, 97, 108]

/-- `peers` -/
def peersKey : Str := [112, 101, 101, 114, 115]

/-- `baselineProvider` -/
def baselineProviderKey : Str :=
  [98, 97, 115, 101, 108, 105, 110, 101, 80, 114, 111, 118, 105, 100, 101, 114]

/-- The fields of an `HttpResponse`. -/
def responseFields : List (Bencode.Field ResponseType) :=
  [⟨[70, 97, 105, 108, 117, 114, 101, 82, 101, 97, 115, 111, 110],
      [102, 97, 105, 108, 117, 114, 101, 32, 114, 101, 97, 115, 111, 110], .string, true, none⟩,
    ⟨[73, 110, 116, 101, 114, 118, 97, 108], intervalKey, .int32, true, none⟩,
    ⟨[84, 114, 97, 99, 107, 101, 114, 73, 100], [116, 114, 97, 99, 107, 101, 114, 32, 105, 100],
      .string, true, none⟩,
    ⟨[67, 111, 109, 112, 108, 101, 116, 101], [99, 111, 109, 112, 108, 101, 116, 101], .int32, true,
      none⟩,
    ⟨[73, 110, 99, 111, 109, 112, 108, 101, 116, 101],
      [105, 110, 99, 111, 109, 112, 108, 101, 116, 101], .int32, true, none⟩,
    ⟨[80, 101, 101, 114, 115], peersKey, .peers, true, none⟩,
    ⟨[80, 101, 101, 114, 115, 54], [112, 101, 101, 114, 115, 54], .peers6, true, none⟩,
    ⟨[66, 97, 115, 101, 108, 105, 110, 101, 80, 114, 111, 118, 105, 100, 101, 114],
      baselineProviderKey, .peers, true, none⟩]

/-- `HttpResponse` -/
def httpResponse : GoType ResponseType := .ofFields responseFields

/-! ## Panics -/

/-- An item that `FromDictInterface` takes: a dictionary with a string for `ip`, an `int64` for
`port`, and a string for `peer id` if it has one. -/
def PeerShaped : Value → Prop
  | .dict d =>
    (∃ ip, d.lookup ipKey = some (.str ip)) ∧
      (∀ v, d.lookup peerIdKey = some v → ∃ id, v = .str id) ∧
      ∃ n, d.lookup portKey = some (.int (.int64 n))
  | _ => False

theorem asString_cases (v : Option Value) :
    (∃ s, v = some (.str s) ∧ asString v = .ok s) ∨
      ((∀ s, v ≠ some (.str s)) ∧ asString v = .error .runtime) := by
  rw [asString.eq_def]
  split
  · next s => exact .inl ⟨s, rfl, rfl⟩
  · next h => exact .inr ⟨h, rfl⟩

theorem asInt64_cases (v : Option Value) :
    (∃ n, v = some (.int (.int64 n)) ∧ asInt64 v = .ok n) ∨
      ((∀ n, v ≠ some (.int (.int64 n))) ∧ asInt64 v = .error .runtime) := by
  rw [asInt64.eq_def]
  split
  · next n => exact .inl ⟨n, rfl, rfl⟩
  · next h => exact .inr ⟨h, rfl⟩

theorem fromDictInterface_cases (p : Peer) (d : List (Str × Value)) :
    (PeerShaped (.dict d) ∧ ∃ q, p.fromDictInterface d = .ok q) ∨
      (¬ PeerShaped (.dict d) ∧ p.fromDictInterface d = .error .runtime) := by
  obtain ⟨ip, hip, hip'⟩ | ⟨hip, hip'⟩ := asString_cases (d.lookup ipKey)
  swap
  · refine .inr ⟨fun h => hip _ h.1.choose_spec, ?_⟩
    simp only [Peer.fromDictInterface, hip']
    rfl
  obtain ⟨n, hport, hport'⟩ | ⟨hport, hport'⟩ := asInt64_cases (d.lookup portKey)
  swap
  · refine .inr ⟨fun h => hport _ h.2.2.choose_spec, ?_⟩
    simp only [Peer.fromDictInterface, hip', hport']
    cases hid : d.lookup peerIdKey with
    | none => rfl
    | some v =>
      obtain ⟨s, -, hv⟩ | ⟨-, hv⟩ := asString_cases (some v)
      · simp only [hv]
        rfl
      · simp only [hv]
        rfl
  simp only [Peer.fromDictInterface, hip', hport', PeerShaped]
  cases hid : d.lookup peerIdKey with
  | none => exact .inl ⟨⟨⟨ip, hip⟩, nofun, n, hport⟩, _, rfl⟩
  | some v =>
    obtain ⟨s, hs, hv⟩ | ⟨hs, hv⟩ := asString_cases (some v)
    · simp only [hv]
      refine .inl ⟨⟨⟨ip, hip⟩, ?_, n, hport⟩, _, rfl⟩
      intro w hw
      exact ⟨s, some.inj (hw.symm.trans hs)⟩
    · simp only [hv]
      refine .inr ⟨fun h => ?_, rfl⟩
      obtain ⟨id, rfl⟩ := h.2.1 v rfl
      exact hs id rfl

theorem appendItem_cases (me : Peers) (x : Value) :
    (PeerShaped x ∧ ∃ me', me.appendItem x = .ok me') ∨
      (¬ PeerShaped x ∧ me.appendItem x = .error .runtime) := by
  cases x with
  | dict d =>
    obtain ⟨hd, p, hp⟩ | ⟨hd, hp⟩ := fromDictInterface_cases {} d
    · refine .inl ⟨hd, ?_⟩
      simp only [Peers.appendItem, hp]
      exact ⟨_, rfl⟩
    · refine .inr ⟨hd, ?_⟩
      simp only [Peers.appendItem, hp]
      rfl
  | _ => exact .inr ⟨id, rfl⟩

theorem foldlM_appendItem_cases (me : Peers) (xs : List Value) :
    ((∀ x ∈ xs, PeerShaped x) ∧ ∃ me', xs.foldlM Peers.appendItem me = .ok me') ∨
      (¬ (∀ x ∈ xs, PeerShaped x) ∧ xs.foldlM Peers.appendItem me = .error .runtime) := by
  induction xs generalizing me with
  | nil => exact .inl ⟨by simp, me, rfl⟩
  | cons x xs ih =>
    simp only [foldlM_cons, forall_mem_cons]
    obtain ⟨hx, me', hme⟩ | ⟨hx, herr⟩ := appendItem_cases me x
    · rw [hme]
      obtain ⟨hxs, r, hr⟩ | ⟨hxs, herr⟩ := ih me'
      · exact .inl ⟨⟨hx, hxs⟩, r, hr⟩
      · exact .inr ⟨fun h => hxs h.2, herr⟩
    · rw [herr]
      exact .inr ⟨fun h => hx h.1, rfl⟩

/-- A list with an item that is not a peer, for the peers or the baseline providers. -/
def BadPeers (key : Str) (x : Value) : Prop :=
  (key = peersKey ∨ key = baselineProviderKey) ∧ ∃ xs, x = .list xs ∧ ∃ y ∈ xs, ¬ PeerShaped y

variable {codec : CompactCodec} {compact6 : Str → Bool} {p : Peer} {me : Peers} {key : Str}

/-- **`UnmarshalBencode` panics** exactly on the lists that are not lists of peers. -/
theorem unmarshalBencode_runtime_iff {x : Value} (hx : WellFormed (strLimit 0) x) :
    me.unmarshalBencode codec (marshal x) = .error .runtime ↔
      ∃ xs, x = .list xs ∧ ∃ y ∈ xs, ¬ PeerShaped y := by
  rw [Peers.unmarshalBencode, unmarshal_marshal anyTypes hx]
  cases x with
  | str s => cases hs : codec.unmarshalBinary s <;> simp [hs]
  | int n => simp
  | dict d => simp
  | list xs =>
    simp only [Value.list.injEq, exists_eq_left']
    obtain ⟨hxs, r, hr⟩ | ⟨hxs, herr⟩ := foldlM_appendItem_cases { me with compact := false } xs
    · rw [hr]
      exact iff_of_false nofun (by simpa using hxs)
    · rw [herr]
      exact iff_of_true rfl (by simpa using hxs)

theorem flat_responseFields (f : Bencode.Field ResponseType) (hf : f ∈ responseFields) :
    f.Flat (responseTypes codec compact6) := by
  simp only [responseFields, mem_cons, not_mem_nil, or_false] at hf
  rcases hf with rfl | rfl | rfl | rfl | rfl | rfl | rfl | rfl
  all_goals first
    | exact ⟨rfl, rfl, rfl, .inl ⟨rfl, trivial⟩⟩
    | exact ⟨rfl, rfl, rfl, .inr ⟨by simp [responseTypes], rfl⟩⟩

theorem getStructFieldForKey_peers {f : Bencode.Field ResponseType} {i : ℕ}
    (h : getStructFieldForKey responseFields key = some (f, i)) (hf : f.type = .peers) :
    key = peersKey ∨ key = baselineProviderKey := by
  have hfound := find?_some (show find? _ _ = some (f, i) from h)
  obtain ⟨-, rfl⟩ := of_decide_eq_true hfound
  have hmem := mem_of_getElem? (getElem_of_field h)
  simp only [responseFields, mem_cons, not_mem_nil, or_false] at hmem
  rcases hmem with rfl | rfl | rfl | rfl | rfl | rfl | rfl | rfl
  all_goals first
    | exact .inl rfl
    | exact .inr rfl
    | cases hf

theorem panicking_iff {x : Value} (hx : WellFormed (strLimit 0) x) :
    Panicking (responseTypes codec compact6) responseFields key x ↔ BadPeers key x := by
  constructor
  · rintro ⟨f, i, unmarshalBencode, hfield, hu, hpanic⟩
    cases htype : f.type <;> rw [htype] at hu <;> cases hu
    · refine ⟨getStructFieldForKey_peers hfield htype, ?_⟩
      cases hres : Peers.unmarshalBencode codec {} (marshal x) with
      | ok r =>
        simp only [hres] at hpanic
        cases hpanic
      | error refusal =>
        simp only [hres] at hpanic
        cases hpanic
        exact (unmarshalBencode_runtime_iff hx).mp hres
    · dsimp only at hpanic
      split at hpanic <;> cases hpanic
  · rintro ⟨hkey, hlist⟩
    have hres : ({} : Peers).unmarshalBencode codec (marshal x) = .error .runtime :=
      (unmarshalBencode_runtime_iff hx).mpr hlist
    rcases hkey with rfl | rfl
    · exact ⟨_, 5, _, rfl, rfl, by rw [hres]; rfl⟩
    · exact ⟨_, 7, _, rfl, rfl, by rw [hres]; rfl⟩

/-- **Responses.** `Unmarshal` of a dictionary returns a value or an error exactly when no list
under `peers` or `baselineProvider` that is reached without an error has an item that is not a peer,
whatever follows the dictionary. -/
theorem response_returns_iff (codec : CompactCodec) (compact6 : Str → Bool)
    {es : List (Str × Value)} (hes : WellFormed defaultDecodeMaxStrLen (.dict es)) (rest : Str) :
    Returns (unmarshal (responseTypes codec compact6) httpResponse (marshal (.dict es) ++ rest)) ↔
      ∀ before key x after, es = before ++ (key, x) :: after →
        (outcomeEntries (responseTypes codec compact6) httpResponse before .zero []).isSome →
        ¬ BadPeers key x := by
  refine (returns_unmarshal_iff flat_responseFields hes rest fun _ _ => panicking_iff).trans ?_
  constructor
  · intro h before key x after heq hreached hbad
    exact h ⟨before, key, x, after, heq, hbad, hreached⟩
  · rintro h ⟨before, key, x, after, heq, hbad, hreached⟩
    exact h before key x after heq hreached hbad

/-- `d8:interval1:x5:peersli1eee`: the interval is an error, and the peers are not reached. -/
theorem bad_interval_returns :
    Returns (unmarshal (responseTypes ⟨fun _ => none, fun _ => none⟩ fun _ => false) httpResponse
      (marshal (.dict [(intervalKey, .str [120]),
        (peersKey, .list [.int (.ofInt 1)])]) ++ [])) := by
  refine (response_returns_iff _ _ (by decide) []).mpr ?_
  rintro (_ | ⟨e, _ | ⟨e', before⟩⟩) key x after heq hreached hbad
  · cases heq
    exact absurd hbad.1 (by decide)
  · cases heq
    cases hreached
  · simp at heq

/-- `d5:peersli1eee`: the list of peers has a number in it. -/
theorem response_panics :
    ¬ Returns (unmarshal (responseTypes ⟨fun _ => none, fun _ => none⟩ fun _ => false) httpResponse
      [100, 53, 58, 112, 101, 101, 114, 115, 108, 105, 49, 101, 101, 101]) := by
  decide +kernel

/-! ## Round trips -/

/-- What `reflectValue` writes for a `Peer`: the fields by their keys, the byte slices as
strings. -/
def Peer.value (p : Peer) : Value :=
  .dict [(ipKey, .str p.ip), (peerIdKey, .str p.id), (portKey, .int (.ofInt p.port))]

/-- `MarshalBencode` -/
def Peers.marshalBencode (codec : CompactCodec) (me : Peers) : Option Str :=
  if me.compact then
    (codec.marshalBinary (me.list.map fun peer => ⟨peer.ip, peer.port⟩)).map fun b =>
      marshal (.str b)
  else some (marshal (.list (me.list.map Peer.value)))

/-- A valid address and port. -/
structure Peer.Valid (p : Peer) : Prop where
  ip : p.ip.length = 4 ∨ p.ip.length = 16
  port : 0 ≤ p.port ∧ p.port ≤ 65535

/-- An IPv4 address, in 4 or in 16 bytes. -/
def IsIPv4 (ip : Str) : Prop := (to4 ip).isSome

/-- The codec is its own inverse on IPv4 addresses. -/
def CompactCodec.Inverse (codec : CompactCodec) : Prop :=
  ∀ l : List NodeAddr, (∀ a ∈ l, IsIPv4 a.ip ∧ 0 ≤ a.port ∧ a.port ≤ 65535) →
    ∃ b l', codec.marshalBinary l = some b ∧ codec.unmarshalBinary b = some l' ∧
      List.Forall₂ (fun a a' => SameIP a.ip a'.ip ∧ a.port = a'.port) l l'

/-- `UnmarshalBencode` of `MarshalBencode` gives the same peers, in the same order; compact forms
have no peer ids. -/
def RoundTrips (codec : CompactCodec) (me : Peers) : Prop :=
  ∃ b r, me.marshalBencode codec = some b ∧ Peers.unmarshalBencode codec {} b = .ok r ∧
    List.Forall₂
      (fun p q => SameIP p.ip q.ip ∧ p.port = q.port ∧ (me.compact = false → p.id = q.id))
      me.list r.list

/-- The compact form is no longer than a string may be. -/
def CompactFits (codec : CompactCodec) (me : Peers) : Prop :=
  ∀ b, codec.marshalBinary (me.list.map fun peer => ⟨peer.ip, peer.port⟩) = some b →
    b.length ≤ defaultDecodeMaxStrLen

/-- What comes back of a peer that is not in compact form. -/
def Peer.readBack (p : Peer) : Peer := { p with ip := (parseIP p.ip).getD [] }

theorem fromDictInterface_value (hp : p.Valid) :
    Peer.fromDictInterface {} [(ipKey, .str p.ip), (peerIdKey, .str p.id),
      (portKey, .int (.ofInt p.port))] = .ok p.readBack := by
  obtain ⟨hlo, hhi⟩ := hp.port
  have hport : Number.ofInt p.port = .int64 (.ofInt p.port) := by
    rw [Number.ofInt, dif_pos (by omega)]
  have hback : (Int64.ofInt p.port).toInt = p.port := Int64.toInt_ofInt_of_le (by omega) (by omega)
  rw [hport]
  change Except.ok ({ ip := _, port := (Int64.ofInt p.port).toInt, id := _ } : Peer) = _
  rw [hback]
  rfl

theorem foldlM_appendItem_values (me : Peers) {ps : List Peer} (hps : ∀ p ∈ ps, p.Valid) :
    (ps.map Peer.value).foldlM Peers.appendItem me =
      .ok { me with list := me.list ++ ps.map Peer.readBack } := by
  induction ps generalizing me with
  | nil => simp; rfl
  | cons p ps ih =>
    obtain ⟨hp, hps⟩ := forall_mem_cons.mp hps
    have hstep : me.appendItem p.value = .ok { me with list := me.list ++ [p.readBack] } := by
      rw [Peer.value, Peers.appendItem, fromDictInterface_value hp]
      rfl
    rw [map_cons, foldlM_cons, hstep]
    refine (ih _ hps).trans ?_
    simp

theorem unmarshal_marshal_eq {v : Value} {w : Val}
    (h : unmarshal anyTypes .iface (marshal v) = .ok w) :
    w = .iface v ∧ WellFormed defaultDecodeMaxStrLen v := by
  obtain ⟨v', rfl, hwf, heq⟩ := unmarshal_iface_sound h
  obtain ⟨rfl, -⟩ := marshal_append_inj v' v [] [] (by simpa using heq)
  exact ⟨rfl, hwf⟩

theorem readBack_ne (hp : p.Valid) : ¬ SameIP p.ip p.readBack.ip := by
  rw [Peer.readBack]
  cases h : parseIP p.ip with
  | some r => exact parseIP_ne_raw h
  | none =>
    rintro (h | ⟨-, h⟩ | ⟨h, -⟩)
    · have := hp.ip
      simp [h] at this
    · simp [mapped] at h
    · simp at h

theorem roundTrips_list_iff (hcompact : me.compact = false) (hvalid : ∀ p ∈ me.list, p.Valid) :
    RoundTrips codec me ↔ me.list = [] := by
  have hmarshal : me.marshalBencode codec = some (marshal (.list (me.list.map Peer.value))) := by
    rw [Peers.marshalBencode, if_neg (by simp [hcompact])]
  constructor
  · rintro ⟨b, r, hb, hr, hsame⟩
    obtain rfl : marshal _ = b := some.inj (hmarshal.symm.trans hb)
    rw [Peers.unmarshalBencode] at hr
    cases hu : unmarshal anyTypes .iface (marshal (.list (me.list.map Peer.value))) with
    | error e => simp [hu] at hr
    | ok w =>
      obtain ⟨rfl, -⟩ := unmarshal_marshal_eq hu
      simp only [hu, foldlM_appendItem_values _ hvalid, Except.ok.injEq] at hr
      subst hr
      cases hl : me.list with
      | nil => rfl
      | cons p ps =>
        rw [hl] at hsame hvalid
        cases hsame with
        | cons h _ => exact absurd h.1 (readBack_ne (hvalid p (mem_cons_self ..)))
  · intro hl
    rw [hl] at hmarshal
    refine ⟨_, {}, hmarshal, ?_, by rw [hl]; exact .nil⟩
    rw [Peers.unmarshalBencode, unmarshal_marshal anyTypes (by trivial)]
    rfl

theorem roundTrips_compact_iff (hcodec : codec.Inverse) (hcompact : me.compact = true)
    (hvalid : ∀ p ∈ me.list, p.Valid) (hip : ∀ p ∈ me.list, IsIPv4 p.ip) :
    RoundTrips codec me ↔ CompactFits codec me := by
  obtain ⟨b, l, hb, hl, hsame⟩ := hcodec (me.list.map fun peer => ⟨peer.ip, peer.port⟩) (by
    intro a ha
    obtain ⟨p, hp, rfl⟩ := mem_map.mp ha
    exact ⟨hip p hp, (hvalid p hp).port⟩)
  have hmarshal : me.marshalBencode codec = some (marshal (.str b)) := by
    rw [Peers.marshalBencode, if_pos hcompact, hb, map_some]
  constructor
  · rintro ⟨b', r, hb', hr, -⟩ b'' hb''
    obtain rfl : marshal _ = b' := some.inj (hmarshal.symm.trans hb')
    obtain rfl : b = b'' := some.inj (hb.symm.trans hb'')
    rw [Peers.unmarshalBencode] at hr
    cases hu : unmarshal anyTypes .iface (marshal (.str b)) with
    | error e => simp [hu] at hr
    | ok w => exact (unmarshal_marshal_eq hu).2
  · intro hfits
    have hwf : WellFormed defaultDecodeMaxStrLen (.str b) := hfits b hb
    refine ⟨_, { list := l.map fun cp => { ip := cp.ip, port := cp.port }, compact := true },
      hmarshal, ?_, ?_⟩
    · simp only [Peers.unmarshalBencode, unmarshal_marshal anyTypes hwf, hl]
      rfl
    · rw [forall₂_map_right_iff]
      rw [forall₂_map_left_iff] at hsame
      refine hsame.imp ?_
      rintro p a ⟨hip, hport⟩
      exact ⟨hip, hport, by simp [hcompact]⟩

/-- **Round trips.** Of the lists of valid peers (IPv4 peers, in compact form) those come back that
are empty, or compact and not too long for a string. -/
theorem roundTrip_iff {codec : CompactCodec} (hcodec : codec.Inverse) {me : Peers}
    (hvalid : ∀ p ∈ me.list, p.Valid) (hip : me.compact = true → ∀ p ∈ me.list, IsIPv4 p.ip) :
    RoundTrips codec me ↔ if me.compact then CompactFits codec me else me.list = [] := by
  cases hcompact : me.compact with
  | true => exact roundTrips_compact_iff hcodec hcompact hvalid (hip hcompact)
  | false => exact roundTrips_list_iff hcompact hvalid

/-! A codec of 6 bytes for an address. -/

/-- Addresses of 6 bytes each. -/
def readCompact : Str → Option (List NodeAddr)
  | [] => some []
  | a :: b :: c :: d :: p :: q :: rest =>
    (readCompact rest).map (⟨[a, b, c, d], getBE [p, q]⟩ :: ·)
  | _ => none

/-- `krpc.CompactIPv4NodeAddrs` -/
def compactIPv4 : CompactCodec where
  marshalBinary l := some (l.flatMap fun a => (to4 a.ip).getD a.ip ++ putBE 2 a.port.toNat)
  unmarshalBinary := readCompact

theorem getD_to4 {ip : Str} (h : IsIPv4 ip) :
    ((to4 ip).getD ip).length = 4 ∧ SameIP ip ((to4 ip).getD ip) := by
  obtain ⟨a, ha⟩ := isSome_iff_exists.mp h
  rw [ha, getD_some]
  obtain ⟨hlen, rfl | rfl⟩ := to4_eq_some_iff.mp ha
  · exact ⟨hlen, .inl rfl⟩
  · exact ⟨hlen, .inr (.inr ⟨hlen, rfl⟩)⟩

theorem readCompact_append {x y : Str} (hx : x.length = 4) (hy : y.length = 2) (rest : Str) :
    readCompact (x ++ y ++ rest) = (readCompact rest).map (⟨x, getBE y⟩ :: ·) :=
  match x, hx, y, hy with
  | [_, _, _, _], _, [_, _], _ => rfl

theorem compactIPv4_inverse : compactIPv4.Inverse := by
  intro l hl
  refine ⟨_, l.map fun a => ⟨(to4 a.ip).getD a.ip, a.port⟩, rfl, ?_, ?_⟩
  · induction l with
    | nil => rfl
    | cons a l ih =>
      obtain ⟨⟨hip, hlo, hhi⟩, hl⟩ := forall_mem_cons.mp hl
      have hport : (getBE (putBE 2 a.port.toNat) : ℤ) = a.port := by
        rw [getBE_putBE_of_lt (by omega)]
        omega
      have htail : readCompact _ = _ := ih hl
      change readCompact _ = _
      rw [flatMap_cons, readCompact_append (getD_to4 hip).1 (length_putBE ..), hport, htail]
      rfl
  · rw [forall₂_map_right_iff, forall₂_same]
    exact fun a ha => ⟨(getD_to4 (hl a ha).1).2, rfl⟩

/-- `1.2.3.4:80` in compact form. -/
theorem compact_peer_back :
    RoundTrips compactIPv4 { list := [{ ip := [1, 2, 3, 4], port := 80 }], compact := true } := by
  have hvalid : Peer.Valid { ip := [1, 2, 3, 4], port := 80 } := ⟨.inl rfl, by decide⟩
  refine (roundTrip_iff compactIPv4_inverse ?_ ?_).mpr ?_
  · simpa using hvalid
  · intro _ p hp
    rw [mem_singleton.mp hp]
    rfl
  · intro b hb
    cases hb
    decide

/-- `127.0.0.1:80` with the peer id `x`, not in compact form: what is read back has no address. -/
theorem plain_peer_lost :
    Peers.marshalBencode compactIPv4
          { list := [{ ip := [127, 0, 0, 1], port := 80, id := [120] }] } =
        some [108, 100, 50, 58, 105, 112, 52, 58, 127, 0, 0, 1, 55, 58, 112, 101, 101, 114, 32, 105,
          100, 49, 58, 120, 52, 58, 112, 111, 114, 116, 105, 56, 48, 101, 101, 101] ∧
      Peers.unmarshalBencode compactIPv4 {}
          [108, 100, 50, 58, 105, 112, 52, 58, 127, 0, 0, 1, 55, 58, 112, 101, 101, 114, 32, 105,
            100, 49, 58, 120, 52, 58, 112, 111, 114, 116, 105, 56, 48, 101, 101, 101] =
        .ok { list := [{ ip := [], port := 80, id := [120] }] } := by
  constructor
  · decide +kernel
  · decide +kernel

end ReliableBT.Tracker.Http
