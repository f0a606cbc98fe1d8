import ReliableBT.Lib.FixedCodec

/-!
# UDP tracker announces (`tracker/udp`, `tracker/udp/server`)

The client side is `Client.Announce` down to the datagram it hands to its `Writer`
(`announceDatagram`: `requestWriter`'s header, then `mustMarshal(req)`, then `opts.Encode()`); the
server side is `HandleRequest`. Both marshal Go structs with `encoding/binary`, so the wire layout
of a struct is the concatenation of its fields: its `FixedCodec`.

The layout both must agree with is BEP 15's: `AnnounceBody`, ten fields in 82 bytes, and behind
it the options of BEP 41. `AnnounceRequest` has an eleventh field, `BaselineProvider`, which is
marshalled like the others. So

* no datagram of the client has the options at offset 98 (`announceDatagram_not_bep15`): the
  flag's byte comes first;
* the server wants 83 bytes. It fails on a bare BEP 15 body, and takes the first byte of
  trailing options for the flag (`handleAnnounce_served_iff`);
* client and server of this repository still understand each other (`announce_session`).

What the server calls (the connection tracker, `AnnounceHandler.Serve`, the socket, `netip` and
the compact node address form of the DHT package) is a field of `Server`. Out of scope: the
client's retransmissions, each of which writes a datagram of this form, and the telemetry.
-/

namespace ReliableBT.Tracker.Udp

open ReliableBT.Bytes ReliableBT.FixedCodec List

/-! ## Structures on the wire -/

/-- `ActionConnect` -/
def actionConnect : Int32 := 0

/-- `ActionAnnounce` -/
def actionAnnounce : Int32 := 1

/-- `RequestHeader` -/
structure RequestHeader where
  connectionId : UInt64
  action : Int32
  transactionId : Int32
  deriving Repr, DecidableEq

/-- The binary form of a `RequestHeader`. -/
def RequestHeader.codec : FixedCodec RequestHeader :=
  (uint64.pair (int32.pair int32)).iso
    (fun (c, a, t) => ⟨c, a, t⟩)
    (fun h => (h.connectionId, h.action, h.transactionId))
    (fun _ => rfl)

/-- `ResponseHeader` -/
structure ResponseHeader where
  action : Int32
  transactionId : Int32
  deriving Repr, DecidableEq

/-- The binary form of a `ResponseHeader`. -/
def ResponseHeader.codec : FixedCodec ResponseHeader :=
  (int32.pair int32).iso (fun (a, t) => ⟨a, t⟩) (fun h => (h.action, h.transactionId))
    (fun _ => rfl)

/-- `AnnounceResponseHeader` -/
structure AnnounceResponseHeader where
  interval : Int32
  leechers : Int32
  seeders : Int32
  deriving Repr, DecidableEq

/-- The binary form of an `AnnounceResponseHeader`. -/
def AnnounceResponseHeader.codec : FixedCodec AnnounceResponseHeader :=
  (int32.pair (int32.pair int32)).iso
    (fun (i, l, s) => ⟨i, l, s⟩)
    (fun h => (h.interval, h.leechers, h.seeders))
    (fun _ => rfl)

/-- `AnnounceRequest` -/
structure AnnounceRequest where
  infoHash : ByteArr 20
  peerId : ByteArr 20
  downloaded : Int64
  left : Int64
  uploaded : Int64
  event : Int32
  ipAddress : UInt32
  key : Int32
  numWant : Int32
  port : UInt16
  baselineProvider : Bool
  deriving Repr, DecidableEq

/-- The binary form of an `AnnounceRequest`. -/
def AnnounceRequest.codec : FixedCodec AnnounceRequest :=
  ((bytes 20).pair ((bytes 20).pair (int64.pair (int64.pair (int64.pair
    (int32.pair (uint32.pair (int32.pair (int32.pair (uint16.pair bool)))))))))).iso
    (fun (ih, pid, d, l, u, e, ip, k, n, p, b) => ⟨ih, pid, d, l, u, e, ip, k, n, p, b⟩)
    (fun r => (r.infoHash, r.peerId, r.downloaded, r.left, r.uploaded, r.event, r.ipAddress,
      r.key, r.numWant, r.port, r.baselineProvider))
    (fun _ => rfl)

/-! ## The client -/

/-- `Options`; a Go string is a string of bytes. -/
structure Options where
  requestUri : List UInt8
  deriving Repr, DecidableEq

/-- `optionTypeURLData` -/
def optionTypeURLData : UInt8 := 2

/-- The loop of `Options.Encode`, on the part of the URI it has not written. -/
def encodeUri (uri : List UInt8) : List UInt8 :=
  if uri.length = 0 then []
  else
    let l := if uri.length > 255 then 255 else uri.length
    optionTypeURLData :: UInt8.ofNat l :: uri.take l ++ encodeUri (uri.drop l)
termination_by uri.length
decreasing_by
  rw [length_drop]
  split <;> omega

/-- `Options.Encode` -/
def Options.encode (opts : Options) : List UInt8 := encodeUri opts.requestUri

/-- The datagram `requestWriter` writes. -/
def requestDatagram (connId : UInt64) (action : Int32) (body : List UInt8) (tId : Int32) :
    List UInt8 :=
  RequestHeader.codec.put ⟨connId, action, tId⟩ ++ body

/-- The datagram `Client.Announce` has written, under the connection id it got from the tracker
and the id of its transaction. -/
def announceDatagram (connId : UInt64) (tId : Int32) (req : AnnounceRequest) (opts : Options) :
    List UInt8 :=
  requestDatagram connId actionAnnounce (AnnounceRequest.codec.put req ++ opts.encode) tId

/-! ## The server -/

/-- `AddrFamily` -/
inductive AddrFamily where
  | ipv4
  | ipv6
  deriving Repr, DecidableEq

/-- `netip.Addr`, without zones. -/
inductive Addr where
  | zero
  | v4 (ip : ByteArr 4)
  | v6 (ip : ByteArr 16)
  deriving Repr, DecidableEq

/-- The prefix of IPv4 addresses in IPv6. -/
def v4InV6Prefix : List UInt8 := replicate 10 0 ++ [255, 255]

/-- `Addr.As4` on the addresses with `Unmap().Is4()`, `none` for the others. -/
def Addr.unmap4 : Addr → Option (List UInt8)
  | .zero => none
  | .v4 ip => some ip.toList
  | .v6 ip => if ip.toList.take 12 = v4InV6Prefix then some (ip.toList.drop 12) else none

/-- `Addr.As16` -/
def Addr.as16 : Addr → List UInt8
  | .zero => replicate 16 0
  | .v4 ip => v4InV6Prefix ++ ip.toList
  | .v6 ip => ip.toList

/-- `netip.AddrPort` -/
structure AddrPort where
  addr : Addr
  port : UInt16
  deriving Repr, DecidableEq

/-- `krpc.NodeAddr` -/
structure NodeAddr where
  ip : List UInt8
  port : Nat
  deriving Repr, DecidableEq

/-- `ServerAnnounceResult` -/
structure ServerAnnounceResult (ε : Type) where
  err : Option ε := none
  peers : List AddrPort := []
  interval : Option Int32 := none
  leechers : Option Int32 := none
  seeders : Option Int32 := none

/-- `Server`, and what it calls outside the package; `ε` are the errors these return. -/
structure Server (ε : Type) where
  /-- `ConnTracker.Add` -/
  add : String → UInt64 → Option ε
  /-- `ConnTracker.Check` -/
  check : String → UInt64 → Except ε Bool
  /-- `SendResponse` -/
  sendResponse : List UInt8 → String → Except ε Nat
  /-- `Announce.Serve`, with `GetPeersOpts.MaxCount` -/
  serve : AnnounceRequest → AddrPort → Nat → ServerAnnounceResult ε
  /-- `netip.ParseAddrPort` -/
  parseAddrPort : String → Except ε AddrPort
  /-- `MarshalBinary` of `GetNodeAddrsCompactMarshaler` -/
  compactNodeAddrs : List NodeAddr → AddrFamily → Except ε (List UInt8)

/-- The errors of the server's handlers. -/
inductive ServerError (ε : Type) where
  /-- `reading request header: %w` -/
  | readingHeader (e : IoError)
  /-- `unimplemented` -/
  | unimplemented
  /-- `checking conn id: %w` -/
  | checkingConnId (e : ε)
  /-- `incorrect connection id: %x` -/
  | incorrectConnId (id : UInt64)
  /-- `udp.Read`'s, as it is. -/
  | read (e : IoError)
  /-- `converting source net.Addr to AnnounceAddr: %w` -/
  | convertingSource (e : ε)
  /-- `res.Err`, as it is. -/
  | serve (e : ε)
  /-- `marshalling compact node addrs: %w` -/
  | marshallingNodeAddrs (e : ε)
  /-- `SendResponse`'s, as it is. -/
  | send (e : ε)
  /-- `io.ErrShortWrite` -/
  | shortWrite
  /-- `recording conn id: %w` -/
  | recordingConnId (e : ε)
  /-- `handling action %v: %w` -/
  | handlingAction (action : Int32) (e : ServerError ε)

/-- What a request made the server do: the call of `Serve`, the response it sent, and the error
its handler returned. -/
structure Handled (ε : Type) where
  served : Option (AnnounceRequest × AddrPort × Nat) := none
  sent : Option (List UInt8) := none
  err : Option (ServerError ε) := none

/-- The response as it is sent, and the check that all of it went out. -/
def Server.respond {ε : Type} (me : Server ε) (buf : List UInt8) (source : String)
    (served : Option (AnnounceRequest × AddrPort × Nat)) : Handled ε :=
  match me.sendResponse buf source with
  | .error e => { served, sent := some buf, err := some (.send e) }
  | .ok n =>
    if n < buf.length then { served, sent := some buf, err := some .shortWrite }
    else { served, sent := some buf }

/-- The loop over `res.Peers`: the peers of the family, the others are passed over. -/
def nodeAddrs (family : AddrFamily) (peers : List AddrPort) : List NodeAddr :=
  peers.filterMap fun p =>
    match family with
    | .ipv4 => p.addr.unmap4.map fun ip => ⟨ip, p.port.toNat⟩
    | .ipv6 => some ⟨p.addr.as16, p.port.toNat⟩

/-- `GetPeersOpts.MaxCount` -/
def maxCount : AddrFamily → Nat
  | .ipv4 => 150
  | .ipv6 => 50

/-- `handleAnnounce` from the call of `Serve` on. -/
def Server.serveAnnounce {ε : Type} (me : Server ε) (addrFamily : AddrFamily) (source : String)
    (tid : Int32) (req : AnnounceRequest) (announceAddr : AddrPort) : Handled ε :=
  let served := some (req, announceAddr, maxCount addrFamily)
  let res := me.serve req announceAddr (maxCount addrFamily)
  match res.err with
  | some e => { served, err := some (.serve e) }
  | none =>
    match me.compactNodeAddrs (nodeAddrs addrFamily res.peers) addrFamily with
    | .error e => { served, err := some (.marshallingNodeAddrs e) }
    | .ok b =>
      me.respond
        (ResponseHeader.codec.put ⟨actionAnnounce, tid⟩ ++
          AnnounceResponseHeader.codec.put
            ⟨res.interval.getD (5 * 60), res.leechers.getD 0, res.seeders.getD 0⟩ ++ b)
        source served

/-- `handleAnnounce`, on the bytes `r` after the request header. -/
def Server.handleAnnounce {ε : Type} (me : Server ε) (addrFamily : AddrFamily) (source : String)
    (connId : UInt64) (tid : Int32) (r : List UInt8) : Handled ε :=
  match me.check source connId with
  | .error e => { err := some (.checkingConnId e) }
  | .ok false => { err := some (.incorrectConnId connId) }
  | .ok true =>
    match (AnnounceRequest.codec.read r).1 with
    | .error e => { err := some (.read e) }
    | .ok req =>
      match me.parseAddrPort source with
      | .error e => { err := some (.convertingSource e) }
      | .ok announceAddr => me.serveAnnounce addrFamily source tid req announceAddr

/-- `handleConnect`, with the number that `randomConnectionId` returned. -/
def Server.handleConnect {ε : Type} (me : Server ε) (source : String) (tid : Int32)
    (connId : UInt64) : Handled ε :=
  match me.add source connId with
  | some e => { err := some (.recordingConnId e) }
  | none =>
    me.respond (ResponseHeader.codec.put ⟨actionConnect, tid⟩ ++ uint64.put connId) source none

/-- `HandleRequest` -/
def Server.handleRequest {ε : Type} (me : Server ε) (family : AddrFamily) (source : String)
    (randomConnectionId : UInt64) (body : List UInt8) : Handled ε :=
  match RequestHeader.codec.read body with
  | (.error e, _) => { err := some (.readingHeader e) }
  | (.ok h, r) =>
    let handled :=
      if h.action = actionConnect then
        me.handleConnect source h.transactionId randomConnectionId
      else if h.action = actionAnnounce then
        me.handleAnnounce family source h.connectionId h.transactionId r
      else { err := some .unimplemented }
    { handled with err := handled.err.map (.handlingAction h.action) }

/-! ## The layout of BEP 15 -/

/-- The announce body of BEP 15. -/
structure AnnounceBody where
  infoHash : ByteArr 20
  peerId : ByteArr 20
  downloaded : Int64
  left : Int64
  uploaded : Int64
  event : Int32
  ipAddress : UInt32
  key : Int32
  numWant : Int32
  port : UInt16
  deriving Repr, DecidableEq

/-- The layout of the body: the ten fields, big-endian. -/
def AnnounceBody.codec : FixedCodec AnnounceBody :=
  ((bytes 20).pair ((bytes 20).pair (int64.pair (int64.pair (int64.pair
    (int32.pair (uint32.pair (int32.pair (int32.pair uint16))))))))).iso
    (fun (ih, pid, d, l, u, e, ip, k, n, p) => ⟨ih, pid, d, l, u, e, ip, k, n, p⟩)
    (fun r => (r.infoHash, r.peerId, r.downloaded, r.left, r.uploaded, r.event, r.ipAddress,
      r.key, r.numWant, r.port))
    (fun _ => rfl)

/-- The fields of a request that BEP 15 knows. -/
def AnnounceRequest.body (req : AnnounceRequest) : AnnounceBody :=
  ⟨req.infoHash, req.peerId, req.downloaded, req.left, req.uploaded, req.event, req.ipAddress,
    req.key, req.numWant, req.port⟩

/-- The request with the given BEP 15 fields. -/
def AnnounceBody.request (f : AnnounceBody) (baselineProvider : Bool) : AnnounceRequest :=
  ⟨f.infoHash, f.peerId, f.downloaded, f.left, f.uploaded, f.event, f.ipAddress, f.key,
    f.numWant, f.port, baselineProvider⟩

/-- A datagram of BEP 15 and BEP 41: the 16-byte header, the 82-byte body, and the options from
offset 98 on. -/
def Bep15Datagram (connId : UInt64) (tId : Int32) (req : AnnounceRequest) (opts : Options)
    (datagram : List UInt8) : Prop :=
  datagram.take 16 = RequestHeader.codec.put ⟨connId, actionAnnounce, tId⟩ ∧
  (datagram.drop 16).take 82 = AnnounceBody.codec.put req.body ∧
  datagram.drop 98 = opts.encode

theorem requestHeader_size : RequestHeader.codec.size = 16 := rfl

theorem announceRequest_size : AnnounceRequest.codec.size = 83 := rfl

theorem announceBody_exact : AnnounceBody.codec.Exact :=
  iso_exact
    (pair_exact (bytes_exact 20) <| pair_exact (bytes_exact 20) <| pair_exact int64_exact <|
      pair_exact int64_exact <| pair_exact int64_exact <| pair_exact int32_exact <|
      pair_exact uint32_exact <| pair_exact int32_exact <| pair_exact int32_exact uint16_exact)
    (fun _ => rfl)

variable {f : AnnounceBody} {b : UInt8}

theorem announceRequest_get :
    AnnounceRequest.codec.get (AnnounceBody.codec.put f ++ [b]) = f.request (decide (b ≠ 0)) := by
  simp only [AnnounceRequest.codec, AnnounceBody.codec, AnnounceBody.request, iso_put, iso_get,
    pair_put, append_assoc, pair_get]
  rfl

/-! ## Client and server against the layout -/

/-- **The client.** No announce has the layout: the flag stands between body and options. -/
theorem announceDatagram_not_bep15 (connId : UInt64) (tId : Int32) (req : AnnounceRequest)
    (opts : Options) :
    ¬ Bep15Datagram connId tId req opts (announceDatagram connId tId req opts) := by
  rintro ⟨-, -, hopts⟩
  have hlen := congrArg length hopts
  simp only [announceDatagram, requestDatagram, length_drop, length_append,
    FixedCodec.length_put, requestHeader_size, announceRequest_size] at hlen
  omega

theorem readRequest_append_cons (rest : List UInt8) :
    (AnnounceRequest.codec.read (AnnounceBody.codec.put f ++ b :: rest)).1 =
      .ok (f.request (decide (b ≠ 0))) := by
  have hlen : (AnnounceBody.codec.put f ++ [b]).length = AnnounceRequest.codec.size := by
    rw [length_append, FixedCodec.length_put]
    rfl
  rw [← singleton_append, ← append_assoc, read_append hlen, announceRequest_get]

theorem readRequest_body (f : AnnounceBody) :
    ∃ e, (AnnounceRequest.codec.read (AnnounceBody.codec.put f)).1 = .error e := by
  obtain ⟨e, he⟩ := read_short AnnounceRequest.codec
    (s := AnnounceBody.codec.put f) (by rw [FixedCodec.length_put]; decide)
  exact ⟨e, by rw [he]⟩

section Server

variable {ε : Type} {me : Server ε} {source : String} {connId : UInt64} {addr : AddrPort}

theorem respond_served (me : Server ε) (buf : List UInt8) (source : String)
    (served : Option (AnnounceRequest × AddrPort × Nat)) :
    (me.respond buf source served).served = served := by
  unfold Server.respond
  cases me.sendResponse buf source with
  | error e => rfl
  | ok n => by_cases h : n < buf.length <;> simp [h]

variable {family : AddrFamily} {tid : Int32}

theorem serveAnnounce_served (me : Server ε) (source : String) (req : AnnounceRequest)
    (addr : AddrPort) :
    (me.serveAnnounce family source tid req addr).served = some (req, addr, maxCount family) := by
  unfold Server.serveAnnounce
  simp only
  split
  · rfl
  · split
    · rfl
    · exact respond_served me _ source _

theorem handleAnnounce_served_of_read (hcheck : me.check source connId = .ok true)
    (hsource : me.parseAddrPort source = .ok addr)
    {r : List UInt8} {req : AnnounceRequest} (hread : (AnnounceRequest.codec.read r).1 = .ok req) :
    (me.handleAnnounce family source connId tid r).served = some (req, addr, maxCount family) := by
  simp only [Server.handleAnnounce, hcheck, hread, hsource, serveAnnounce_served]

/-- **The server.** A BEP 15 body is served as the request with its fields and without the flag
exactly when a zero byte follows it. -/
theorem handleAnnounce_served_iff (hcheck : me.check source connId = .ok true)
    (hsource : me.parseAddrPort source = .ok addr)
    (body : ByteArr 82) (trailing : List UInt8) :
    (me.handleAnnounce family source connId tid (body.toList ++ trailing)).served =
        some ((AnnounceBody.codec.get body.toList).request false, addr, maxCount family) ↔
      trailing.head? = some 0 := by
  have hbody := announceBody_exact body.toList body.length_eq
  generalize AnnounceBody.codec.get body.toList = f at hbody
  rw [← hbody]
  cases trailing with
  | nil =>
    obtain ⟨e, he⟩ := readRequest_body f
    simp [Server.handleAnnounce, hcheck, he]
  | cons b rest =>
    rw [handleAnnounce_served_of_read hcheck hsource (readRequest_append_cons rest)]
    simp [AnnounceBody.request]

end Server

/-- **Announces and BEP 15.** The client writes the layout for no request and no options, and the
server reads a BEP 15 body for what it says exactly when a zero byte follows it. -/
theorem announce_bep15 (connId : UInt64) (tId : Int32) (req : AnnounceRequest) (opts : Options)
    {ε : Type} (me : Server ε) (family : AddrFamily) (source : String) (addr : AddrPort)
    (body : ByteArr 82) (trailing : List UInt8) :
    ¬ Bep15Datagram connId tId req opts (announceDatagram connId tId req opts) ∧
    (me.check source connId = .ok true → me.parseAddrPort source = .ok addr →
      ((me.handleAnnounce family source connId tId (body.toList ++ trailing)).served =
          some ((AnnounceBody.codec.get body.toList).request false, addr, maxCount family) ↔
        trailing.head? = some 0)) :=
  ⟨announceDatagram_not_bep15 connId tId req opts, fun hcheck hsource =>
    handleAnnounce_served_iff hcheck hsource body trailing⟩

/-- A server that knows every connection, for one client on the loopback interface. -/
def loopbackServer : Server Unit where
  add _ _ := none
  check _ _ := .ok true
  sendResponse buf _ := .ok buf.length
  serve _ _ _ := {}
  parseAddrPort _ := .ok ⟨.v4 ⟨[127, 0, 0, 1], rfl⟩, 6881⟩
  compactNodeAddrs nas _ := .ok (nas.flatMap fun na => na.ip ++ putBE 2 na.port)

/-- The body of 82 zero bytes. -/
def zeroBody : ByteArr 82 := ⟨replicate 82 0, rfl⟩

/-- The bare zero body is not served, the zero body with a zero byte behind it is. -/
theorem announce_bep15_zeroBody :
    (loopbackServer.handleAnnounce .ipv4 "127.0.0.1:6881" 7 1 (zeroBody.toList ++ [])).served ≠
        some ((AnnounceBody.codec.get zeroBody.toList).request false,
          ⟨.v4 ⟨[127, 0, 0, 1], rfl⟩, 6881⟩, 150) ∧
      (loopbackServer.handleAnnounce .ipv4 "127.0.0.1:6881" 7 1 (zeroBody.toList ++ [0])).served =
        some ((AnnounceBody.codec.get zeroBody.toList).request false,
          ⟨.v4 ⟨[127, 0, 0, 1], rfl⟩, 6881⟩, 150) := by
  have h := fun trailing => (announce_bep15 7 1
    ((AnnounceBody.codec.get zeroBody.toList).request false) ⟨[]⟩ loopbackServer .ipv4
    "127.0.0.1:6881" ⟨.v4 ⟨[127, 0, 0, 1], rfl⟩, 6881⟩ zeroBody trailing).2 rfl rfl
  exact ⟨fun hs => by simpa using (h []).mp hs, (h [0]).mpr rfl⟩

/-- An announce without options is 99 bytes long, and the server fails with a short read on the
bare zero body of BEP 15. -/
theorem zeroBody_announce_fails :
    ¬ Bep15Datagram 7 1 ((AnnounceBody.codec.get zeroBody.toList).request false) ⟨[]⟩
        (announceDatagram 7 1 ((AnnounceBody.codec.get zeroBody.toList).request false) ⟨[]⟩) ∧
      (loopbackServer.handleAnnounce .ipv4 "127.0.0.1:6881" 7 1 zeroBody.toList).err =
        some (.read .unexpectedEof) :=
  ⟨announceDatagram_not_bep15 7 1 _ _, rfl⟩

section Session

variable {ε : Type} {me : Server ε} {source : String} {addr : AddrPort} {id : UInt64}

theorem respond_sent (buf : List UInt8) (served : Option (AnnounceRequest × AddrPort × Nat)) :
    (me.respond buf source served).sent = some buf := by
  unfold Server.respond
  cases me.sendResponse buf source with
  | error e => rfl
  | ok n => by_cases h : n < buf.length <;> simp [h]

theorem read_requestDatagram (connId : UInt64) (action : Int32) (body : List UInt8) (tId : Int32) :
    RequestHeader.codec.read (requestDatagram connId action body tId) =
      (.ok ⟨connId, action, tId⟩, body) := by
  rw [requestDatagram, read_put]

/-- **A session.** If the server can record the connection id `id` and then knows it, the client
reads it from the response to its connect request, and each announce under it is served as the
request that was announced, whatever the options. -/
theorem announce_session (family : AddrFamily) (hadd : me.add source id = none)
    (hcheck : me.check source id = .ok true) (hsource : me.parseAddrPort source = .ok addr) :
    (∀ connId tId, ∃ buf rest,
      (me.handleRequest family source id (requestDatagram connId actionConnect [] tId)).sent =
          some buf ∧
        ResponseHeader.codec.read buf = (.ok ⟨actionConnect, tId⟩, rest) ∧
        uint64.read rest = (.ok id, [])) ∧
    ∀ rnd tId req opts,
      (me.handleRequest family source rnd (announceDatagram id tId req opts)).served =
        some (req, addr, maxCount family) := by
  constructor
  · intro connId tId
    refine ⟨ResponseHeader.codec.put ⟨actionConnect, tId⟩ ++ uint64.put id, uint64.put id,
      ?_, ?_, ?_⟩
    · rw [Server.handleRequest, read_requestDatagram]
      simp only [if_true, Server.handleConnect, hadd]
      exact respond_sent _ none
    · rw [read_put]
    · rw [← append_nil (uint64.put id), read_put]
  · intro rnd tId req opts
    have hread : (AnnounceRequest.codec.read (AnnounceRequest.codec.put req ++ opts.encode)).1 =
        .ok req := by
      rw [read_put]
    rw [announceDatagram, Server.handleRequest, read_requestDatagram]
    simp only [show actionAnnounce ≠ actionConnect by decide, if_false, if_true]
    exact handleAnnounce_served_of_read hcheck hsource hread

theorem announce_session_loopback :
    (loopbackServer.handleRequest .ipv4 "127.0.0.1:6881" 0 (announceDatagram 7 1
      ((AnnounceBody.codec.get zeroBody.toList).request true) ⟨[47]⟩)).served =
        some ((AnnounceBody.codec.get zeroBody.toList).request true,
          ⟨.v4 ⟨[127, 0, 0, 1], rfl⟩, 6881⟩, 150) :=
  (@announce_session _ loopbackServer _ _ 7 .ipv4 rfl rfl rfl).2 0 1 _ ⟨[47]⟩

end Session

end ReliableBT.Tracker.Udp
