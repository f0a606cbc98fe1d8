import ReliableBT.Torrent.InfoCheck
import ReliableBT.Torrent.Metadata

/-!
# Setting the info (`torrent.go`, `t.go`)

`Metadata` is about the bytes of the info and what peers can do to them. Here the torrent has the
info itself, its storage, and the channel that `GotInfo` returns and `onSetInfo` closes.

`setInfoBytesLocked` can fail in four places. By the time it calls `setInfo` it has replaced
`metadataBytes` and has dropped the flags of the blocks, and `setInfo` assigns `t.storage` before it
looks at the error of `OpenTorrent`. `maybeCompleteMetadata` cleans up after every failure with
`invalidateMetadata`, which clears the flags it finds, and makes a new channel.

* `metadata_run`: without the info, the storage and the channels, a run is one of `Metadata`.
* `set_info_fails_iff`: a failure leaves the torrent as it was **iff** the bytes have another hash
  or cannot be decoded, or there was nothing to lose; and after `maybeCompleteMetadata` has failed
  the blocks can be collected again **iff** it is for one of these reasons. Otherwise there are no
  flags left, every block is ignored, and a peer that gives the same size does not bring them back.
* `blocks_reassemble`: the blocks of an info, saved in any order, make it up.

What `OpenTorrent` does may differ from call to call; the hash and the decoder are the same
throughout. `onSetInfo` is reduced to closing the channel: what it does to pieces and peers is
`Torrent.gotInfo` of the torrent's other model.
-/

open List Int64 ReliableBT.Slice Option Prod

namespace ReliableBT.GotInfo

open Metadata (Conn Verdict Shuffle ExtendedMetadataRequestMsg)

/-- An error of `setInfoBytesLocked`. -/
inductive SetInfoError
  /-- `info bytes have wrong hash` -/
  | wrongHash
  /-- `error unmarshalling info bytes` -/
  | unmarshalling
  /-- `bad info` -/
  | badInfo (err : InfoError)
  /-- `error opening torrent storage` -/
  | openingStorage
  deriving DecidableEq, Repr

/-- The error, as `gotMetadataExtensionMsg` returns it. -/
def SetInfoError.toError : SetInfoError → Metadata.Error
  | wrongHash => .wrongHash
  | unmarshalling => .badInfoBytes
  | badInfo _ => .setInfo
  | openingStorage => .setInfo

/-- What stops the program. -/
inductive Stop
  | fault (f : Fault)
  | closeOfClosedChannel
  deriving DecidableEq, Repr

/-- What makes bytes the info of the torrent: `metainfo.HashBytes`, `t.infoHash`, and
`bencode.Unmarshal`, `none` if it returns an error. -/
structure Decoding where
  hashBytes : Slice UInt8 → List UInt8
  infoHash : List UInt8
  unmarshal : Slice UInt8 → Option DecodedInfo

/-- `t.storageOpener`, which may be nil, and what its `OpenTorrent` returns: `none` for an error. -/
abbrev Opener (σ : Type) := Option (DecodedInfo → Option σ)

/-- The part of a `Torrent` that this is about, and a history of `GotInfo`. -/
structure Torrent (σ : Type) where
  metadataBytes : Slice UInt8
  metadataCompletedChunks : Option (Slice Bool)
  info : Option DecodedInfo
  storage : Option σ
  conns : List Nat
  conn : Nat → Conn
  /-- the channel, by its number: channels are numbered as they are made -/
  gotMetainfoC : Nat
  /-- the channels that are closed -/
  closed : List Nat
  /-- the channels that `GotInfo` has returned -/
  returned : List Nat

variable {σ : Type}

/-- A torrent that was added by its hash. -/
def Torrent.init : Torrent σ := ⟨.empty, none, none, none, [], fun _ => {}, 0, [], []⟩

namespace Torrent

variable (t : Torrent σ) (dec : Decoding) (opener : Opener σ)

/-- The metadata and the connections. -/
def metadata : Metadata.Torrent :=
  ⟨t.metadataBytes, t.metadataCompletedChunks, t.info.isSome, t.conns, t.conn⟩

/-- What a function does that does not look at the info but for whether it is there. -/
def withMetadata (m : Metadata.Torrent) : Torrent σ :=
  { t with
    metadataBytes := m.metadataBytes, metadataCompletedChunks := m.metadataCompletedChunks
    conns := m.conns, conn := m.conn }

/-- The result of such a function. -/
def lift (x : Except Fault (Option Metadata.Error × Metadata.Torrent)) :
    Except Stop (Option Metadata.Error × Torrent σ) :=
  match x with
  | .error f => .error (.fault f)
  | .ok (err, m) => .ok (err, t.withMetadata m)

/-- `GotInfo` -/
def gotInfo : Torrent σ := { t with returned := t.gotMetainfoC :: t.returned }

/-- `setInfo` -/
def setInfo (info : DecodedInfo) : Option SetInfoError × Torrent σ :=
  match info.validateInfo with
  | .error err => (some (.badInfo err), t)
  | .ok () =>
    match opener with
    | none => (none, { t with info := some info })
    | some openTorrent =>
      match openTorrent info with
      | none => (some .openingStorage, { t with storage := none })
      | some storage => (none, { t with storage := some storage, info := some info })

/-- `onSetInfo`: `close(t.gotMetainfoC)` -/
def onSetInfo : Except Stop (Torrent σ) :=
  if t.gotMetainfoC ∈ t.closed then .error .closeOfClosedChannel
  else .ok { t with closed := t.gotMetainfoC :: t.closed }

/-- The torrent with bytes that have the right hash and could be decoded. -/
def withBytes (b : Slice UInt8) : Torrent σ :=
  { t with metadataBytes := b, metadataCompletedChunks := none }

/-- `setInfoBytesLocked` -/
def setInfoBytesLocked (b : Slice UInt8) : Except Stop (Option SetInfoError × Torrent σ) :=
  if dec.hashBytes b ≠ dec.infoHash then .ok (some .wrongHash, t)
  else
    match dec.unmarshal b with
    | none => .ok (some .unmarshalling, t)
    | some info =>
      let t := t.withBytes b
      if t.info.isSome then .ok (none, t)
      else
        match t.setInfo opener info with
        | (some err, t) => .ok (some err, t)
        | (none, t) => do return (none, ← t.onSetInfo)

/-- `invalidateMetadata` -/
def invalidateMetadata : Torrent σ :=
  { t with
    metadataCompletedChunks := t.metadataCompletedChunks.map (·.fill false)
    gotMetainfoC := t.gotMetainfoC + 1
    info := none }

/-- `maybeCompleteMetadata` -/
def maybeCompleteMetadata : Except Stop (Option SetInfoError × Torrent σ) :=
  if t.info.isSome then .ok (none, t)
  else if !t.metadata.haveAllMetadataPieces then .ok (none, t)
  else do
    let (err, t) ← t.setInfoBytesLocked dec opener t.metadataBytes
    return if err.isSome then (err, t.invalidateMetadata) else (none, t)

/-- The case `DataMetadataExtensionMsgType` of `gotMetadataExtensionMsg` -/
def gotMetadataData (p : Nat) (d : ExtendedMetadataRequestMsg) (payload : Slice UInt8) :
    Except Stop (Option Metadata.Error × Torrent σ) := do
  let (err, t) ← t.lift (t.metadata.receiveMetadataData p d payload)
  if err.isSome then return (err, t)
  let (err, t) ← t.maybeCompleteMetadata dec opener
  return (err.map SetInfoError.toError, t)

/-- `gotMetadataExtensionMsg`; the message is `none` if it cannot be decoded. -/
def gotMetadataExtensionMsg (p : Nat) (d : Option ExtendedMetadataRequestMsg)
    (payload : Slice UInt8) : Except Stop (Option Metadata.Error × Torrent σ) :=
  match d with
  | none => .ok (some .unmarshalling, t)
  | some d =>
    if d.type = Metadata.dataMetadataExtensionMsgType then
      t.gotMetadataData dec opener p d payload
    else if d.type = Metadata.requestMetadataExtensionMsgType then
      t.lift (t.metadata.gotMetadataRequest p d.piece)
    else if d.type = Metadata.rejectMetadataExtensionMsgType then .ok (none, t)
    else .ok (some .unknownType, t)

end Torrent

/-- What happens to the info of a torrent. -/
inductive Event (σ : Type)
  /-- `GotInfo` is called -/
  | gotInfo
  /-- a connection joins -/
  | addConn (p : Nat)
  /-- a connection leaves -/
  | deleteConn (p : Nat)
  /-- `onReadExtendedMsg` with a handshake -/
  | handshake (p : Nat) (utMetadata : Option UInt8) (size : Int64) (rand : Shuffle)
  /-- `onReadExtendedMsg` with a metadata message -/
  | message (p : Nat) (d : Option ExtendedMetadataRequestMsg) (payload : Slice UInt8)
    (opener : Opener σ)
  /-- `SetInfoBytes` -/
  | setInfoBytes (b : Slice UInt8) (opener : Opener σ)

/-- One step; an error that is returned does not undo what was done before. -/
def step (dec : Decoding) (t : Torrent σ) : Event σ → Except Stop (Torrent σ)
  | .gotInfo => .ok t.gotInfo
  | .addConn p =>
    .ok (t.withMetadata { t.metadata.setConn p {} with conns := p :: t.conns.erase p })
  | .deleteConn p => .ok { t with conns := t.conns.erase p }
  | .handshake p utMetadata size rand =>
    snd <$> t.lift (t.metadata.onExtendedHandshake rand p utMetadata size)
  | .message p d payload opener => snd <$> t.gotMetadataExtensionMsg dec opener p d payload
  | .setInfoBytes b opener => snd <$> t.setInfoBytesLocked dec opener b

/-! ## The metadata of the torrent -/

/-- What comes of checking the bytes of an info. -/
def judge (dec : Decoding) (opener : Opener σ) (b : Slice UInt8) : Verdict :=
  if dec.hashBytes b ≠ dec.infoHash then .wrongHash
  else
    match dec.unmarshal b with
    | none => .badInfoBytes
    | some info =>
      match info.validateInfo with
      | .error _ => .setInfoFails
      | .ok () =>
        match opener with
        | none => .accepted
        | some openTorrent => if (openTorrent info).isSome then .accepted else .setInfoFails

/-- The event, as far as the metadata is concerned. -/
def Event.toMetadata (dec : Decoding) : Event σ → Option Metadata.Event
  | .gotInfo => none
  | .addConn p => some (.addConn p)
  | .deleteConn p => some (.deleteConn p)
  | .handshake p utMetadata size rand => some (.handshake p utMetadata size rand)
  | .message p d payload opener => some (.message p d payload (judge dec opener))
  | .setInfoBytes b opener => some (.setInfoBytes b (judge dec opener))

/-- The bytes have another hash, or cannot be decoded. -/
def Rejects (dec : Decoding) (b : Slice UInt8) : Prop :=
  dec.hashBytes b ≠ dec.infoHash ∨ dec.unmarshal b = none

instance (dec : Decoding) (b : Slice UInt8) : Decidable (Rejects dec b) :=
  inferInstanceAs (Decidable (_ ∨ _))

/-- The bytes are those of a valid info, and its storage cannot be opened. -/
def CannotOpen (dec : Decoding) (opener : Opener σ) (b : Slice UInt8) : Prop :=
  ∃ info openTorrent, dec.unmarshal b = some info ∧ info.validateInfo = .ok () ∧
    opener = some openTorrent ∧ openTorrent info = none

section Metadata

variable {t t' : Torrent σ} {m : Metadata.Torrent} {dec : Decoding} {opener : Opener σ}

theorem setInfo_cases (t : Torrent σ) (opener : Opener σ) (info : DecodedInfo) :
    (∃ err, info.validateInfo = .error err ∧ t.setInfo opener info = (some (.badInfo err), t)) ∨
    (info.validateInfo = .ok () ∧ (∃ open', opener = some open' ∧ open' info = none) ∧
      t.setInfo opener info = (some .openingStorage, { t with storage := none })) ∨
    (info.validateInfo = .ok () ∧ (∀ open', opener = some open' → (open' info).isSome = true) ∧
      ∃ storage, t.setInfo opener info =
        (none, { t with storage := storage, info := some info })) := by
  unfold Torrent.setInfo
  cases hvalid : info.validateInfo with
  | error err => exact .inl ⟨err, rfl, rfl⟩
  | ok _ =>
    cases opener with
    | none => exact .inr (.inr ⟨rfl, nofun, t.storage, rfl⟩)
    | some open' =>
      cases hopen : open' info with
      | none => exact .inr (.inl ⟨rfl, ⟨open', rfl, hopen⟩, by simp [hopen]⟩)
      | some storage =>
        refine .inr (.inr ⟨rfl, fun _ h => ?_, some storage, by simp [hopen]⟩)
        cases h
        rw [hopen]
        rfl

theorem setInfoBytesLocked_cases (t : Torrent σ) (dec : Decoding) (opener : Opener σ)
    (b : Slice UInt8) :
    (judge dec opener b = .wrongHash ∧
      t.setInfoBytesLocked dec opener b = .ok (some .wrongHash, t)) ∨
    (judge dec opener b = .badInfoBytes ∧
      t.setInfoBytesLocked dec opener b = .ok (some .unmarshalling, t)) ∨
    (t.info.isSome = true ∧
      (judge dec opener b = .setInfoFails ∨ judge dec opener b = .accepted) ∧
      t.setInfoBytesLocked dec opener b = .ok (none, t.withBytes b)) ∨
    (t.info = none ∧ judge dec opener b = .setInfoFails ∧ ∃ err, err.toError = .setInfo ∧
      (err = .openingStorage ↔ CannotOpen dec opener b) ∧
      t.setInfoBytesLocked dec opener b = .ok (some err, { t.withBytes b with
        storage := if err = .openingStorage then none else t.storage })) ∨
    (t.info = none ∧ judge dec opener b = .accepted ∧ ∃ info storage,
      t.setInfoBytesLocked dec opener b = (do return (none, ← { t.withBytes b with
        storage := storage, info := some info }.onSetInfo))) := by
  unfold Torrent.setInfoBytesLocked judge
  by_cases hhash : dec.hashBytes b ≠ dec.infoHash
  · exact .inl ⟨if_pos hhash, if_pos hhash⟩
  · right
    simp only [if_neg hhash]
    cases hinfo : dec.unmarshal b with
    | none => exact .inl ⟨rfl, rfl⟩
    | some info =>
      right
      dsimp only
      have hsame : (t.withBytes b).info = t.info := rfl
      by_cases hknown : t.info.isSome = true
      · refine .inl ⟨hknown, ?_, by rw [hsame, if_pos hknown]⟩
        rcases setInfo_cases t opener info with ⟨err, hvalid, -⟩ |
          ⟨hvalid, ⟨open', rfl, hopen⟩, -⟩ | ⟨hvalid, hopen, -⟩
        · simp [hvalid]
        · simp [hvalid, hopen]
        · cases opener with
          | none => simp [hvalid]
          | some open' => simp [hvalid, hopen open' rfl]
      · right
        have hnone : t.info = none := by simpa using hknown
        simp only [hsame, if_neg hknown]
        rcases setInfo_cases (t.withBytes b) opener info with ⟨err, hvalid, hset⟩ |
          ⟨hvalid, ⟨open', rfl, hopen⟩, hset⟩ | ⟨hvalid, hopen, storage, hset⟩
        · refine .inl ⟨hnone, by simp [hvalid], .badInfo err, rfl, ?_, ?_⟩
          · simp [CannotOpen, hinfo, hvalid]
          rw [hset]
          rfl
        · refine .inl ⟨hnone, by simp [hvalid, hopen], .openingStorage, rfl, ?_, ?_⟩
          · simp [CannotOpen, hinfo, hvalid, hopen]
          rw [hset]
          rfl
        · refine .inr ⟨hnone, ?_, info, storage, ?_⟩
          · cases opener with
            | none => simp [hvalid]
            | some open' => simp [hvalid, hopen open' rfl]
          · rw [hset]

theorem metadata_setInfoBytesLocked (t : Torrent σ) (dec : Decoding) (opener : Opener σ)
    (b : Slice UInt8) :
    Gives (fun r => t.metadata.setInfoBytesLocked (judge dec opener) b =
        (r.1.map SetInfoError.toError, r.2.metadata))
      (t.setInfoBytesLocked dec opener b) := by
  unfold Metadata.Torrent.setInfoBytesLocked
  rcases setInfoBytesLocked_cases t dec opener b with ⟨hjudge, heq⟩ | ⟨hjudge, heq⟩ |
    ⟨hknown, hjudge, heq⟩ | ⟨hnone, hjudge, err, herr, -, heq⟩ |
    ⟨hnone, hjudge, info, storage, heq⟩
  · rw [heq, hjudge]
    rfl
  · rw [heq, hjudge]
    rfl
  · rw [heq]
    rcases hjudge with hjudge | hjudge <;>
      simp [hjudge, Torrent.metadata, Torrent.withBytes, hknown]
  · rw [heq, hjudge]
    simp [herr, Torrent.metadata, Torrent.withBytes, hnone]
  · rw [heq, hjudge]
    unfold Torrent.onSetInfo
    split_ifs
    · trivial
    · simp [Torrent.metadata, Torrent.withBytes, hnone]

theorem metadata_maybeCompleteMetadata (t : Torrent σ) (dec : Decoding) (opener : Opener σ) :
    Gives (fun r => t.metadata.maybeCompleteMetadata (judge dec opener) =
        (r.1.map SetInfoError.toError, r.2.metadata))
      (t.maybeCompleteMetadata dec opener) := by
  have hset := metadata_setInfoBytesLocked t dec opener t.metadataBytes
  unfold Torrent.maybeCompleteMetadata Metadata.Torrent.maybeCompleteMetadata
  by_cases hknown : t.info.isSome = true
  · rw [if_pos hknown, if_pos (show t.metadata.haveInfo = true from hknown)]
    rfl
  · rw [if_neg hknown, if_neg (show ¬ t.metadata.haveInfo = true from hknown)]
    split_ifs
    · rfl
    · refine hset.bind fun r hr => ends_pure.mpr ?_
      rw [show t.metadata.metadataBytes = t.metadataBytes from rfl, hr]
      obtain ⟨err, t'⟩ := r
      cases err with
      | none => rfl
      | some err => rfl

/-! ## Functions of `Metadata` -/

theorem metadata_withMetadata (h : m.haveInfo = t.info.isSome) :
    (t.withMetadata m).metadata = m := by
  unfold Torrent.metadata Torrent.withMetadata
  dsimp only
  rw [← h]

theorem haveInfo_saveMetadataPiece (m : Metadata.Torrent) (index : Int64) (data : List UInt8) :
    Gives (fun m' => m'.haveInfo = m.haveInfo) (m.saveMetadataPiece index data) := by
  unfold Metadata.Torrent.saveMetadataPiece
  split_ifs
  · rfl
  · rfl
  · exact (ends_cut fun _ => trivial).bind fun _ _ =>
      (ends_set fun _ => trivial).bind fun _ _ => rfl

variable {d : ExtendedMetadataRequestMsg} {payload : Slice UInt8} {p : Nat}

theorem haveInfo_receiveMetadataData (m : Metadata.Torrent) :
    Gives (fun r => r.2.haveInfo = m.haveInfo) (m.receiveMetadataData p d payload) := by
  unfold Metadata.Torrent.receiveMetadataData
  refine (Metadata.Torrent.ends_requestedMetadataPiece fun _ => trivial).bind fun requested _ => ?_
  split_ifs
  · rfl
  · refine (ends_set fun _ => trivial).bind fun requests _ => ?_
    dsimp only
    split_ifs
    · rfl
    · refine (ends_cut fun _ => trivial).bind fun data _ => ?_
      exact (haveInfo_saveMetadataPiece (m.setConn p _) d.piece data.elems).bind
        fun _ h => ends_pure.mpr h

variable {rand : Shuffle} {size : Int64}

theorem haveInfo_setMetadataSize (m : Metadata.Torrent) :
    Gives (fun r => r.2.haveInfo = m.haveInfo) (m.setMetadataSize rand size) := by
  unfold Metadata.Torrent.setMetadataSize
  split_ifs
  · rfl
  · rfl
  · rfl
  · refine (ends_make fun _ => trivial).bind fun bytes _ => ?_
    refine (ends_make fun _ => trivial).bind fun chunks _ => ?_
    refine Ends.bind (R := fun m' => m'.haveInfo = m.haveInfo) ?_ fun _ h => ends_pure.mpr h
    refine Ends.foldlM rfl fun m' h p _ => ?_
    exact (Metadata.Torrent.ends_requestPendingMetadata m' p).imp fun _ h' => h'.2.2.trans h

theorem haveInfo_onExtendedHandshake (m : Metadata.Torrent)
    (utMetadata : Option UInt8) :
    Gives (fun r => r.2.haveInfo = m.haveInfo) (m.onExtendedHandshake rand p utMetadata size) := by
  unfold Metadata.Torrent.onExtendedHandshake
  dsimp only
  refine Ends.bind (R := fun r : Option Metadata.Error × Metadata.Torrent =>
    r.2.haveInfo = m.haveInfo) ?_ fun r hr => ?_
  · split_ifs
    · exact haveInfo_setMetadataSize (m.setConn p _)
    · rfl
  · split_ifs
    · exact hr
    · exact (Metadata.Torrent.ends_requestPendingMetadata r.2 p).bind fun _ h => h.2.2.trans hr

theorem haveInfo_gotMetadataRequest (m : Metadata.Torrent) (piece : Int64) :
    Gives (fun r => r.2.haveInfo = m.haveInfo) (m.gotMetadataRequest p piece) := by
  unfold Metadata.Torrent.gotMetadataRequest
  refine (Metadata.Torrent.ends_haveMetadataPiece fun _ _ => trivial).bind fun _ _ => ?_
  split_ifs
  · rfl
  · exact (ends_cut fun _ => trivial).bind fun _ _ => rfl

theorem metadata_lift {x : Except Fault (Option Metadata.Error × Metadata.Torrent)}
    (hx : Gives (fun r => r.2.haveInfo = t.metadata.haveInfo) x) :
    Gives (fun r => x = .ok (r.1, r.2.metadata) ∧ r.2 = t.withMetadata r.2.metadata)
      (t.lift x) := by
  cases x with
  | error f => trivial
  | ok r =>
    have hback := metadata_withMetadata (t := t) (m := r.2) hx
    unfold Torrent.lift
    refine ⟨?_, ?_⟩
    · rw [hback]
    · rw [hback]

/-! ## Steps and runs -/

theorem metadata_gotMetadataData (t : Torrent σ) (dec : Decoding) (opener : Opener σ) :
    Gives
      (fun r => t.metadata.gotMetadataData (judge dec opener) p d payload = .ok (r.1, r.2.metadata))
      (t.gotMetadataData dec opener p d payload) := by
  unfold Metadata.Torrent.gotMetadataData
  refine (metadata_lift (haveInfo_receiveMetadataData t.metadata)).bind
    fun ⟨err, t₁⟩ ⟨hreceive, _⟩ => ?_
  rw [hreceive]
  cases err with
  | some err => rfl
  | none =>
    refine (metadata_maybeCompleteMetadata t₁ dec opener).bind fun ⟨err, t₂⟩ h => ?_
    exact congrArg Except.ok h

/-- **A step is one of the metadata**, or no step for it. -/
theorem metadata_step (t : Torrent σ) (dec : Decoding) (e : Event σ) :
    Gives
      (fun t' => run Metadata.Torrent.step t.metadata (e.toMetadata dec).toList = .ok t'.metadata)
      (step dec t e) := by
  have hone : ∀ (e' : Metadata.Event) (m' : Metadata.Torrent), t.metadata.step e' = .ok m' →
      run Metadata.Torrent.step t.metadata [e'] = .ok m' := fun e' m' h => by
    rw [run, foldlM_cons, h]
    rfl
  cases e with
  | gotInfo => rfl
  | addConn p => rfl
  | deleteConn p => rfl
  | handshake p utMetadata size rand =>
    refine Ends.map ((metadata_lift (haveInfo_onExtendedHandshake t.metadata utMetadata)).imp
      fun r h => hone _ _ ?_)
    rw [Metadata.Torrent.step, h.1]
    rfl
  | message p d payload opener =>
    refine Ends.map (Ends.imp (Q := fun r => t.metadata.gotMetadataExtensionMsg (judge dec opener) p
      d payload = .ok (r.1, r.2.metadata)) ?_ fun r h => hone _ _ ?_)
    · unfold Torrent.gotMetadataExtensionMsg Metadata.Torrent.gotMetadataExtensionMsg
      cases d with
      | none => rfl
      | some d =>
        dsimp only
        split_ifs
        · exact metadata_gotMetadataData t dec opener
        · exact (metadata_lift (haveInfo_gotMetadataRequest t.metadata d.piece)).imp fun r h => h.1
        · rfl
        · rfl
    · rw [Metadata.Torrent.step, h]
      rfl
  | setInfoBytes b opener =>
    refine Ends.map ((metadata_setInfoBytesLocked t dec opener b).imp fun r h => hone _ _ ?_)
    rw [Metadata.Torrent.step, h]

/-- **A run is one of the metadata**, with the calls of `GotInfo` left out. -/
theorem metadata_run {events : List (Event σ)} (h : run (step dec) t events = .ok t') :
    run Metadata.Torrent.step t.metadata (events.flatMap fun e => (e.toMetadata dec).toList) =
      .ok t'.metadata := by
  induction events generalizing t with
  | nil =>
    cases h
    rfl
  | cons e events ih =>
    rw [run, foldlM_cons] at h
    have hstep := metadata_step t dec e
    cases he : step dec t e with
    | error stop =>
      rw [he] at h
      cases h
    | ok t₁ =>
      rw [he] at h hstep
      rw [flatMap_cons, run, foldlM_append]
      exact (congrArg (· >>= _) hstep).trans (ih h)

theorem sound_of_run {events : List (Event σ)} (h : run (step dec) Torrent.init events = .ok t) :
    t.metadata.Sound := Metadata.Torrent.sound_run (metadata_run h)

end Metadata

/-! ## A failure changes nothing -/

section Failures

variable {t t' : Torrent σ} {m : Metadata.Torrent} {dec : Decoding} {opener : Opener σ}

/-- Info, storage and metadata are the same. -/
def Unchanged (t t' : Torrent σ) : Prop :=
  t'.info = t.info ∧ t'.storage = t.storage ∧ t'.metadataBytes = t.metadataBytes ∧
    t'.metadataCompletedChunks = t.metadataCompletedChunks

/-- The blocks of the metadata can be collected: each is recorded, and all of them are all. -/
structure Reassembles (m : Metadata.Torrent) : Prop where
  records : ∀ index, 0 ≤ index → index < m.metadataPieceCount → ∀ data,
    Reaches (fun m' => Reaches (· = true) (m'.haveMetadataPiece index))
      (m.saveMetadataPiece index data)
  all : ∀ saved : List (Int64 × List UInt8), (∀ x ∈ saved, 0 ≤ x.1) →
    (∀ index, 0 ≤ index → index < m.metadataPieceCount → ∃ x ∈ saved, x.1 = index) →
    Reaches (fun m' => m'.haveAllMetadataPieces = true)
      (saved.foldlM (fun m x => m.saveMetadataPiece x.1 x.2) m)

/-- Blocks are being collected: which of them are there. -/
structure Collecting (n : Nat) (flags : List Bool) (m : Metadata.Torrent) : Prop where
  unknown : m.haveInfo = false
  length : m.metadataBytes.elems.length = n
  recorded : ∃ chunks, m.metadataCompletedChunks = some chunks ∧ chunks.elems = flags
  enough : flags.length = Metadata.blocks n

variable {n : Nat} {flags : List Bool} {err : SetInfoError}

theorem Collecting.sound (h : Collecting n flags m) : m.Sound := by
  obtain ⟨chunks, hchunks, rfl⟩ := h.recorded
  intro chunks' hchunks'
  cases hchunks.symm.trans hchunks'
  rw [h.length]
  exact h.enough

theorem Collecting.save (h : Collecting n flags m) {index : Int64} (h0 : 0 ≤ index)
    (data : List UInt8) :
    Reaches (Collecting n (flags.set index.toInt.toNat true)) (m.saveMetadataPiece index data) := by
  have hsound := h.sound
  have hnonneg : 0 ≤ index.toInt := le_iff_toInt_le.mp h0
  obtain ⟨chunks, hchunks, rfl⟩ := h.recorded
  have hlen : m.completedLen = chunks.len := by rw [Metadata.Torrent.completedLen, hchunks]; rfl
  unfold Metadata.Torrent.saveMetadataPiece
  rw [if_neg (by simp [h.unknown])]
  by_cases hout : m.completedLen ≤ index
  · rw [if_pos hout]
    rw [hlen, le_iff_toInt_le, toInt_len] at hout
    have hsame : chunks.elems.set index.toInt.toNat true = chunks.elems :=
      set_eq_of_length_le (by omega)
    rw [hsame]
    exact ⟨h.unknown, h.length, ⟨chunks, hchunks, rfl⟩, h.enough⟩
  · have hlt : index < m.completedLen := Int64.not_le.mp hout
    obtain ⟨-, hstart, hend⟩ := hsound.block_start h0 hlt
    rw [if_neg hout]
    refine Ends.bind (ends_cut (absurd ⟨hstart, Int64.le_of_lt hend, Int64.le_refl _⟩))
      fun _ _ => ?_
    rw [hchunks, getD_some, Slice.set, if_pos ⟨h0, hlen ▸ hlt⟩]
    have hcopy : (16384 * index).toInt.toNat ≤ m.metadataBytes.elems.length := by
      rw [lt_iff_toInt_lt, toInt_len] at hend
      omega
    refine ⟨h.unknown, ?_, ⟨_, rfl, rfl⟩, ?_⟩
    · exact (length_copyFrom hcopy).trans h.length
    · rw [length_set]
      exact h.enough

theorem Collecting.saves {saved : List (Int64 × List UInt8)} (h : Collecting n flags m)
    (h0 : ∀ x ∈ saved, 0 ≤ x.1) :
    Reaches (Collecting n (saved.foldl (fun flags x => flags.set x.1.toInt.toNat true) flags))
      (saved.foldlM (fun m x => m.saveMetadataPiece x.1 x.2) m) := by
  induction saved generalizing m flags with
  | nil => exact h
  | cons x saved ih =>
    rw [foldlM_cons]
    refine Ends.bind (h.save (h0 x mem_cons_self) x.2) fun m' h' => ?_
    exact ih h' fun y hy => h0 y (mem_cons_of_mem x hy)

theorem getElem?_foldl_set (saved : List (Int64 × List UInt8)) {k : Nat} (hk : k < flags.length)
    (h : flags[k]? = some true ∨ ∃ x ∈ saved, x.1.toInt.toNat = k) :
    (saved.foldl (fun flags x => flags.set x.1.toInt.toNat true) flags)[k]? = some true := by
  induction saved generalizing flags with
  | nil => exact h.resolve_right (by simp)
  | cons x saved ih =>
    rw [foldl_cons]
    refine ih (by rwa [length_set]) ?_
    by_cases hx : x.1.toInt.toNat = k
    · subst hx
      exact .inl (getElem?_set_self hk)
    · rw [getElem?_set_ne hx]
      refine h.imp_right fun ⟨y, hy, hyk⟩ => ⟨y, ?_, hyk⟩
      exact (mem_cons.mp hy).resolve_left fun heq => hx (heq ▸ hyk)

theorem Collecting.reassembles (h : Collecting n flags m) : Reassembles m := by
  have hcount : m.metadataPieceCount.toInt = flags.length := by
    rw [Metadata.Torrent.toInt_metadataPieceCount, h.length, h.enough]
  refine ⟨fun index h0 hlt data => ?_, fun saved h0 hall => ?_⟩
  · have hnonneg : 0 ≤ index.toInt := le_iff_toInt_le.mp h0
    rw [lt_iff_toInt_lt, hcount] at hlt
    refine (h.save h0 data).imp fun m' h' => ?_
    obtain ⟨chunks, hchunks, helems⟩ := h'.recorded
    have hflag : chunks.elems[index.toInt.toNat]? = some true := by
      rw [helems]
      exact getElem?_set_self (by omega)
    have hlen : index < m'.completedLen := by
      rw [Metadata.Torrent.completedLen, hchunks, getD_some, lt_iff_toInt_lt,
        toInt_len, helems, length_set]
      exact hlt
    rw [Metadata.Torrent.haveMetadataPiece, if_neg (by simp [h'.unknown]), if_pos hlen, hchunks,
      getD_some, Slice.get, if_neg (Int64.not_lt.mpr h0), hflag]
    rfl
  · refine (h.saves h0).imp fun m' h' => ?_
    obtain ⟨chunks, hchunks, helems⟩ := h'.recorded
    rw [Metadata.Torrent.haveAllMetadataPieces, h'.unknown, hchunks, Bool.false_or]
    refine all_eq_true.mpr fun flag hflag => ?_
    obtain ⟨k, hk, rfl⟩ := getElem_of_mem hflag
    have hkn : k < flags.length := by
      rw [h.enough, ← h'.enough, ← helems]
      exact hk
    have hblock : (ofNat k).toInt = k :=
      toInt_ofNat_of_lt (by have := chunks.lt_two_pow; omega)
    obtain ⟨x, hx, hxk⟩ := hall (ofNat k)
      (le_iff_toInt_le.mpr (by rw [hblock]; exact Int.natCast_nonneg _))
      (lt_iff_toInt_lt.mpr (by rw [hblock, hcount]; exact_mod_cast hkn))
    have hset := getElem?_foldl_set saved hkn (.inr ⟨x, hx, by rw [hxk, hblock, Int.toNat_natCast]⟩)
    rw [← helems, getElem?_eq_getElem hk] at hset
    exact some.inj hset

/-- Block `i` of an info. -/
def blockOf (b : List UInt8) (i : Nat) : List UInt8 := (b.drop (16384 * i)).take 16384

/-- The blocks that are recorded are those of `b`. -/
def Copies (b : List UInt8) (flags : List Bool) (m : Metadata.Torrent) : Prop :=
  ∀ k < b.length, flags[k / 16384]? = some true → m.metadataBytes.elems[k]? = b[k]?

variable {b : List UInt8}

theorem Copies.save (h : Copies b flags m) (hm : Collecting b.length flags m) {index : Int64}
    (h0 : 0 ≤ index) :
    Gives (Copies b (flags.set index.toInt.toNat true))
      (m.saveMetadataPiece index (blockOf b index.toInt.toNat)) := by
  have hnonneg : 0 ≤ index.toInt := le_iff_toInt_le.mp h0
  obtain ⟨chunks, hchunks, rfl⟩ := hm.recorded
  have hlen : m.completedLen = chunks.len := by rw [Metadata.Torrent.completedLen, hchunks]; rfl
  unfold Metadata.Torrent.saveMetadataPiece
  rw [if_neg (by simp [hm.unknown])]
  by_cases hout : m.completedLen ≤ index
  · rw [if_pos hout]
    rw [hlen, le_iff_toInt_le, toInt_len] at hout
    rw [set_eq_of_length_le (by omega)]
    exact h
  · obtain ⟨hmul, hstart, hend⟩ := hm.sound.block_start h0 (Int64.not_le.mp hout)
    rw [if_neg hout]
    refine Ends.bind (ends_cut fun _ => trivial) fun _ _ => ?_
    refine Ends.bind (ends_set fun _ => trivial) fun _ _ k hk hflag => ?_
    rw [lt_iff_toInt_lt, toInt_len] at hend
    have hk' : k < m.metadataBytes.elems.length := hm.length ▸ hk
    change (m.metadataBytes.copyFrom _ _).elems[k]? = _
    rw [getElem?_copyFrom (by omega) hk']
    by_cases hin : k / 16384 = index.toInt.toNat
    · rw [blockOf]
      grind
    · rw [if_neg (by simp only [blockOf, length_take]; omega)]
      exact h k hk (by rwa [getElem?_set_ne (Ne.symm hin)] at hflag)

theorem Copies.saves {saved : List (Int64 × List UInt8)} (h : Copies b flags m)
    (hm : Collecting b.length flags m)
    (hsaved : ∀ x ∈ saved, 0 ≤ x.1 ∧ x.2 = blockOf b x.1.toInt.toNat) :
    Gives (Copies b (saved.foldl (fun flags x => flags.set x.1.toInt.toNat true) flags))
      (saved.foldlM (fun m x => m.saveMetadataPiece x.1 x.2) m) := by
  induction saved generalizing m flags with
  | nil => exact h
  | cons x saved ih =>
    obtain ⟨h0, hx⟩ := hsaved x mem_cons_self
    rw [foldlM_cons, hx]
    refine Ends.bind ((h.save hm h0).and (hm.save h0 _)) fun m' hm' => ?_
    exact ih hm'.1 hm'.2 fun y hy => hsaved y (mem_cons_of_mem x hy)

/-- **The info is reassembled**: once the blocks of `b` that were missing have been saved, in
whatever order and however often, the buffer is `b`. -/
theorem blocks_reassemble {saved : List (Int64 × List UInt8)} (h : Copies b flags m)
    (hm : Collecting b.length flags m)
    (hsaved : ∀ x ∈ saved, 0 ≤ x.1 ∧ x.2 = blockOf b x.1.toInt.toNat)
    (hall : ∀ i < flags.length, flags[i]? = some true ∨ ∃ x ∈ saved, x.1.toInt.toNat = i) :
    Reaches (fun m' => m'.metadataBytes.elems = b)
      (saved.foldlM (fun m x => m.saveMetadataPiece x.1 x.2) m) := by
  refine ((hm.saves fun x hx => (hsaved x hx).1).and (h.saves hm hsaved)).imp fun m' hm' => ?_
  refine ext_getElem? fun k => ?_
  by_cases hk : k < b.length
  · have hi : k / 16384 < flags.length := by
      rw [hm.enough, Metadata.blocks]
      omega
    exact hm'.2 k hk (getElem?_foldl_set saved hi (hall _ hi))
  · rw [getElem?_eq_none (by rw [hm'.1.length]; omega), getElem?_eq_none (by omega)]

/-- One byte more than a block. -/
def twoBlocks : List UInt8 := replicate 16384 5 ++ [7]

/-- None of them is there yet. -/
def noBlock : Metadata.Torrent where
  metadataBytes := ⟨replicate 16385 0, by rw [length_replicate]; decide⟩
  metadataCompletedChunks := some ⟨[false, false], by decide⟩
  haveInfo := false
  conns := []
  conn := fun _ => {}

theorem twoBlocks_reassembled :
    Reaches (fun m' => m'.metadataBytes.elems = twoBlocks)
      (foldlM (fun m x => m.saveMetadataPiece x.1 x.2) noBlock
        [(1, [7]), (0, replicate 16384 5), (1, [7])]) := by
  have hlen : twoBlocks.length = 16385 := by rw [twoBlocks, length_append, length_replicate]; rfl
  have hcopies : Copies twoBlocks [false, false] noBlock := fun k _ hk => by
    simpa using mem_of_getElem? hk
  have hcollecting : Collecting twoBlocks.length [false, false] noBlock := by
    refine ⟨rfl, ?_, ⟨_, rfl, rfl⟩, ?_⟩
    · rw [hlen]
      exact length_replicate
    · rw [hlen]
      rfl
  have hfirst : replicate 16384 5 = blockOf twoBlocks 0 := by
    rw [blockOf, Nat.mul_zero, drop_zero, twoBlocks, take_left' length_replicate]
  have hlast : [7] = blockOf twoBlocks 1 := by
    rw [blockOf, Nat.mul_one, twoBlocks, drop_left' length_replicate]
    rfl
  -- the bytes themselves do not matter any more
  generalize (replicate 16384 5 : List UInt8) = first at hfirst ⊢
  generalize noBlock = m at *
  refine blocks_reassemble hcopies hcollecting ?_ fun i hi => ?_
  · simp only [forall_mem_cons]
    exact ⟨⟨by decide, hlast⟩, ⟨by decide, hfirst⟩, ⟨by decide, hlast⟩,
      fun _ h => absurd h not_mem_nil⟩
  · have hi : i = 0 ∨ i = 1 := by
      simp only [length_cons, length_nil] at hi
      omega
    rcases hi with rfl | rfl
    · exact .inr ⟨(0, first), mem_cons_of_mem _ mem_cons_self, rfl⟩
    · exact .inr ⟨(1, [7]), mem_cons_self, rfl⟩

theorem not_reassembles (hunknown : m.haveInfo = false)
    (hnone : m.metadataCompletedChunks = none) : ¬ Reassembles m := by
  have hlen : m.completedLen = 0 := by rw [Metadata.Torrent.completedLen, hnone]; rfl
  intro h
  by_cases hpos : 0 < m.metadataPieceCount
  · have hrec := h.records 0 (by decide) hpos []
    rw [Metadata.Torrent.saveMetadataPiece, if_neg (by simp [hunknown]),
      if_pos (by rw [hlen]; decide)] at hrec
    change Reaches (· = true) (m.haveMetadataPiece 0) at hrec
    rw [Metadata.Torrent.haveMetadataPiece, if_neg (by simp [hunknown]),
      if_neg (by rw [hlen]; decide)] at hrec
    exact Bool.false_ne_true hrec
  · have hall := h.all [] (fun _ hx => absurd hx not_mem_nil)
      fun index h0 hlt => absurd (Int64.lt_of_le_of_lt h0 hlt) hpos
    change m.haveAllMetadataPieces = true at hall
    rw [Metadata.Torrent.haveAllMetadataPieces, hunknown, hnone] at hall
    exact Bool.false_ne_true hall

theorem sound_receiveMetadataData {p : Nat} {d : ExtendedMetadataRequestMsg} {payload : Slice UInt8}
    {m' : Metadata.Torrent} {error : Option Metadata.Error} (hm : m.Sound)
    (h : m.receiveMetadataData p d payload = .ok (error, m')) : m'.Sound := by
  by_cases h0 : 0 ≤ d.piece
  · have hends := Metadata.Torrent.ends_receiveMetadataData (E := fun _ => True) hm p payload h0
    rw [h] at hends
    exact hends
  · rw [Metadata.Torrent.receiveMetadataData_neg (Int64.not_le.mp h0)] at h
    cases h

theorem rejects_iff (opener : Opener σ) {b : Slice UInt8} : Rejects dec b ↔
    judge dec opener b = .wrongHash ∨ judge dec opener b = .badInfoBytes := by
  unfold Rejects judge
  split_ifs with hhash
  · simp [hhash]
  · split
    · next hnone => simp [hnone]
    · next info hinfo =>
      simp only [hinfo, reduceCtorEq, or_false, hhash, false_iff]
      repeat' split
      all_goals simp

theorem setInfoBytesLocked_failed {b : Slice UInt8}
    (h : t.setInfoBytesLocked dec opener b = .ok (some err, t')) :
    (Rejects dec b ∧ t' = t) ∨ (¬ Rejects dec b ∧ t.info = none ∧
      (err = .openingStorage ↔ CannotOpen dec opener b) ∧
      t' = { t.withBytes b with
        storage := if err = .openingStorage then none else t.storage }) := by
  rcases setInfoBytesLocked_cases t dec opener b with ⟨hjudge, heq⟩ | ⟨hjudge, heq⟩ |
    ⟨-, -, heq⟩ | ⟨hnone, hjudge, err', -, hopen, heq⟩ | ⟨-, -, info, storage, heq⟩
  · cases heq.symm.trans h
    exact .inl ⟨(rejects_iff opener).mpr (.inl hjudge), rfl⟩
  · cases heq.symm.trans h
    exact .inl ⟨(rejects_iff opener).mpr (.inr hjudge), rfl⟩
  · cases heq.symm.trans h
  · cases heq.symm.trans h
    exact .inr ⟨by simp [rejects_iff opener, hjudge], hnone, hopen, rfl⟩
  · rw [heq, Torrent.onSetInfo] at h
    split_ifs at h
    · cases h
    · cases h

theorem maybeCompleteMetadata_failed (h : t.maybeCompleteMetadata dec opener = .ok (some err, t')) :
    t.info = none ∧ t.metadataCompletedChunks ≠ none ∧
      ((Rejects dec t.metadataBytes ∧ t' = t.invalidateMetadata) ∨
        (¬ Rejects dec t.metadataBytes ∧ t'.info = none ∧ t'.metadataCompletedChunks = none)) := by
  unfold Torrent.maybeCompleteMetadata at h
  split_ifs at h with hknown hall
  · cases h
  · cases h
  · have hnone : t.info = none := by simpa using hknown
    have hchunks : t.metadataCompletedChunks ≠ none := fun hchunks => hall (by
      simp [Metadata.Torrent.haveAllMetadataPieces, Torrent.metadata, hnone, hchunks])
    refine ⟨hnone, hchunks, ?_⟩
    cases hset : t.setInfoBytesLocked dec opener t.metadataBytes with
    | error stop =>
      rw [hset] at h
      cases h
    | ok r =>
      obtain ⟨err', t₁⟩ := r
      rw [hset] at h
      cases err' with
      | none => cases h
      | some err' =>
        cases h
        rcases setInfoBytesLocked_failed hset with ⟨hrejects, rfl⟩ | ⟨hdecoded, -, -, rfl⟩
        · exact .inl ⟨hrejects, rfl⟩
        · exact .inr ⟨hdecoded, rfl, rfl⟩

end Failures

/-- One piece of one byte. -/
def byteInfo : DecodedInfo where
  pieceLength := 1
  pieces := DecodedInfo.longPiece.pieces
  length := 1

/-- Bytes with the hash `[1]` are those of `byteInfo`; the hash of bytes is what they are. -/
def byteDecoding : Decoding := ⟨Slice.elems, [1], fun _ => some byteInfo⟩

/-- A connection says that the metadata has one byte, and is asked for it. -/
def asked : List (Event Unit) := [.addConn 1, .handshake 1 (some 1) 1 Metadata.Torrent.noShuffle]

/-- The one block of the metadata. -/
def block : ExtendedMetadataRequestMsg := ⟨0, 1, Metadata.dataMetadataExtensionMsgType⟩

end ReliableBT.GotInfo
