import ReliableBT.Lib.Bytes

/-!
# Peer wire messages (`peer_protocol/protocol.go`, `peer_protocol/msg.go`)

`Message` is the source's lazy union: one record with the fields of every message type, of which
a message uses some. `marshalBinary` is `Message.MarshalBinary`: the payload of the type after a
four-byte length prefix. It knows how to write fewer types than the decoder knows how to read:
`Suggest` and `AllowedFast` fall into the `default` branch.

The lengths of the fixed-size messages are what the write buffer accounting of a connection
(`interestedMsgLen`, `requestMsgLen`) is computed from.
-/

namespace ReliableBT.Wire

open ReliableBT.Bytes

/-- The bytes that the constants of `protocol.go` name. -/
def namedBytes : List UInt8 := [0, 1, 2, 3, 4, 5, 6, 7, 8, 9, 13, 14, 15, 16, 17, 20]

/-- `MessageType`, a byte; `other` is a byte that no constant names. -/
inductive MessageType where
  | choke
  | unchoke
  | interested
  | notInterested
  | have_
  | bitfield
  | request
  | piece
  | cancel
  | port
  | suggest
  | haveAll
  | haveNone
  | reject
  | allowedFast
  | extended
  | other (b : { b : UInt8 // b ∉ namedBytes })
  deriving Repr, DecidableEq

namespace MessageType

/-- The constants of `protocol.go`. -/
def toByte : MessageType → UInt8
  | choke => 0
  | unchoke => 1
  | interested => 2
  | notInterested => 3
  | have_ => 4
  | bitfield => 5
  | request => 6
  | piece => 7
  | cancel => 8
  | port => 9
  | suggest => 13
  | haveAll => 14
  | haveNone => 15
  | reject => 16
  | allowedFast => 17
  | extended => 20
  | other b => b.1

/-- `MessageType(c)`. -/
def ofByte (c : UInt8) : MessageType :=
  if h : c ∈ namedBytes then
    match c.toNat with
    | 0 => choke
    | 1 => unchoke
    | 2 => interested
    | 3 => notInterested
    | 4 => have_
    | 5 => bitfield
    | 6 => request
    | 7 => piece
    | 8 => cancel
    | 9 => port
    | 13 => suggest
    | 14 => haveAll
    | 15 => haveNone
    | 16 => reject
    | 17 => allowedFast
    | _ => extended
  else other ⟨c, h⟩

/-- `FastExtension`. -/
def fastExtension (mt : MessageType) : Bool :=
  decide (13 ≤ mt.toByte.toNat) && decide (mt.toByte.toNat ≤ 17)

end MessageType

/-- `Message`. -/
structure Message where
  keepalive : Bool := false
  type : MessageType := .choke
  index : UInt32 := 0
  begin : UInt32 := 0
  length : UInt32 := 0
  piece : List UInt8 := []
  bitfield : List Bool := []
  extendedID : UInt8 := 0
  extendedPayload : List UInt8 := []
  port : UInt16 := 0
  deriving Repr, DecidableEq

/-- `binary.Write(&buf, binary.BigEndian, i)` for an `Integer`. -/
def putInteger (i : UInt32) : List UInt8 := putBE 4 i.toNat

@[simp] theorem length_putInteger (i : UInt32) : (putInteger i).length = 4 := length_putBE 4 _

/-- The byte of the eight bits from `bf[8 * k]` on, missing bits read as unset. -/
def bitfieldByte (bf : List Bool) (k : Nat) : UInt8 :=
  (List.range 8).foldl (fun c j => c * 2 + if bf.getD (8 * k + j) false then 1 else 0) 0

/-- `marshalBitfield`. -/
def marshalBitfield (bf : List Bool) : List UInt8 :=
  (List.range ((bf.length + 7) / 8)).map (bitfieldByte bf)

/-- `MarshalBinary`'s payload, the type byte included; `none` for a type it cannot write
(`unknown message type`). -/
def Message.payload (msg : Message) : Option (List UInt8) :=
  match msg.type with
  | .choke | .unchoke | .interested | .notInterested | .haveAll | .haveNone =>
    some [msg.type.toByte]
  | .have_ => some (msg.type.toByte :: putInteger msg.index)
  | .request | .cancel | .reject =>
    some (msg.type.toByte ::
      (putInteger msg.index ++ putInteger msg.begin ++ putInteger msg.length))
  | .bitfield => some (msg.type.toByte :: marshalBitfield msg.bitfield)
  | .piece =>
    some (msg.type.toByte :: (putInteger msg.index ++ putInteger msg.begin ++ msg.piece))
  | .extended => some (msg.type.toByte :: msg.extendedID :: msg.extendedPayload)
  | .port => some (msg.type.toByte :: putBE 2 msg.port.toNat)
  | .suggest | .allowedFast | .other _ => none

/-- `MarshalBinary`: the payload after its length, as a big-endian `uint32`. -/
def Message.marshalBinary (msg : Message) : Option (List UInt8) :=
  if msg.keepalive then some (putBE 4 0)
  else msg.payload.map fun buf => putBE 4 buf.length ++ buf

end ReliableBT.Wire
