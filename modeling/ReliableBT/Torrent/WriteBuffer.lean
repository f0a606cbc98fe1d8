import ReliableBT.Torrent.Data

/-!
# Request updates and the write buffer (`fillWriteBuffer`, `applyRequestState`)

`maxLocalToRemoteRequests` is chosen so that the interest message and all requests of an update fit
between the low-water and the high-water mark. `fillWriteBuffer` tests for the low-water mark, but
the body of the test is only a comment: the update is applied whatever the buffer holds, and
`applyRequestState` panics when a message does not fit.

* `applyRequests_room`: from the low-water mark on, all requests of an update fit.
* `updates_fit_write_buffer`: in a run where updates are applied at the low-water mark or below, the
  two panics are not reached.
* `metadata_backlog_panics`: two buffered answers to metadata requests and an update reach one.
-/

open Nat Function

namespace ReliableBT

open Torrent

/-- All panics but those for want of room in the write buffer. -/
def HasRoom (e : Panic) : Prop := e.group ≠ .buffer

/-- The buffer of `p` is as full as before, and so is what is requested from it. -/
def SameRoom (p : Nat) (t t' : Torrent) : Prop :=
  t'.buf.len p = t.buf.len p ∧ t'.reqs.requests p = t.reqs.requests p

variable {t : Torrent} {p : Nat}

variable {r : Nat}

theorem sameRoom_takeRequest :
    Ends HasRoom (fun x => ∀ t' ∈ x, SameRoom p t t') (t.takeRequest p r) :=
  (Elsewhere.takeRequest (fun e he => by simp [HasRoom, he]) r).imp fun _ hx t' ht' =>
    ⟨(hx t' ht').len, (hx t' ht').requests⟩

/-! ## The requests of an update -/

theorem nominalMaxRequests_le (t : Torrent) (p : Nat) :
    t.nominalMaxRequests p ≤ (maxLocalToRemoteRequests : Nat) := by
  have hpos : 1 ≤ maxLocalToRemoteRequests := by decide
  unfold nominalMaxRequests
  omega

theorem requests_fit :
    writeBufferLowWaterLen + interestedMsgLen + maxLocalToRemoteRequests * requestMsgLen <
      writeBufferHighWaterLen := by
  decide

/-- The buffer holds no more than an update that started at the low-water mark has put there. -/
def Filling (p : Nat) (t : Torrent) : Prop :=
  t.buf.len p ≤
    writeBufferLowWaterLen + interestedMsgLen + (t.reqs.requests p).card * requestMsgLen

theorem SameRoom.filling {t' : Torrent} (h : SameRoom p t t') (ht : Filling p t) :
    Filling p t' := by
  unfold Filling
  rw [h.1, h.2]
  exact ht

theorem shouldRequest_hasRoom : Ends HasRoom (fun _ => True) (t.shouldRequest p r) := by
  unfold shouldRequest
  split_ifs
  · exact nofun
  · exact nofun
  · split
    · exact nofun
    · trivial

theorem mustRequest_room {r : Nat} (ht : Filling p t)
    (hmax : ((t.reqs.requests p).card : Int) < maxLocalToRemoteRequests) :
    Ends HasRoom (fun x => x.2 = true ∧ Filling p x.1) (t.mustRequest p r) := by
  refine shouldRequest_hasRoom.bind fun _ _ => ?_
  split_ifs with hr
  · exact ⟨rfl, ht⟩
  · refine Ends.require (fun _ => ?_) fun _ => PanicGroup.noConfusion
    have hcard : ((t.reqs.requests p).add r).card = (t.reqs.requests p).card + 1 :=
      OrderedBitmap.card_add hr
    have hle : ((t.reqs.requests p).card + 1) * requestMsgLen ≤
        maxLocalToRemoteRequests * requestMsgLen :=
      mul_le_mul_right _ (by omega)
    have hfit := requests_fit
    unfold Filling at ht
    refine ends_pure.mpr ?_
    unfold sendRequest
    split
    · have hlen : (((t.addRequest p r).write p requestMsgLen).buf.len p) =
          t.buf.len p + requestMsgLen := update_self _ _ _
      have hreqs : ((t.addRequest p r).write p requestMsgLen).reqs.requests p =
          (t.reqs.requests p).add r := update_self _ _ _
      rw [add_mul, one_mul] at hle
      refine ⟨decide_eq_true ?_, ?_⟩
      · rw [hlen]
        omega
      · rw [Filling, hlen, hreqs, hcard, add_mul, one_mul]
        omega
    · have hreqs : (t.addRequest p r).reqs.requests p = (t.reqs.requests p).add r :=
        update_self _ _ _
      refine ⟨rfl, ?_⟩
      rw [Filling, hreqs, hcard, add_mul, one_mul]
      exact ht.trans (by omega)

variable {pops : List Nat}

/-- All requests of an update fit. The loop stops at `nominalMaxRequests`, so each request it makes
is below the limit. -/
theorem applyRequests_room (ht : Filling p t) :
    Ends HasRoom (fun x => x.2 = true) (applyRequests p pops t) := by
  refine applyRequests_ends (K := fun _ => Filling p) (T := fun _ _ => Filling p)
    (fun _ => rfl) (fun h => h) (fun h => ?_) (fun {req _ t'} h hbelow => ?_) ht
  · exact sameRoom_takeRequest.imp fun _ hx t' ht' => (hx t' ht').filling h
  · have hlt : ((t'.reqs.requests p).card : Int) < maxLocalToRemoteRequests :=
      Int.lt_of_lt_of_le hbelow.requests_lt (nominalMaxRequests_le t' p)
    refine (mustRequest_room h hlt).imp fun ⟨t₁, more⟩ ⟨hmore, ht₁⟩ => ?_
    cases hmore
    exact ht₁

theorem setInterested_room (b : Bool) (hlow : t.buf.len p ≤ writeBufferLowWaterLen) :
    (t.setInterested p b).2 = true ∧ Filling p (t.setInterested p b).1 := by
  have hstart : Filling p t := by
    unfold Filling
    omega
  unfold setInterested
  split_ifs
  · exact ⟨rfl, hstart⟩
  · dsimp only
    split
    · have hlen : (Torrent.write { t with
          ctl.interested := update t.ctl.interested p b } p interestedMsgLen).buf.len p =
          t.buf.len p + interestedMsgLen := update_self _ _ _
      have hsmall : writeBufferLowWaterLen + interestedMsgLen < writeBufferHighWaterLen := by
        decide
      refine ⟨decide_eq_true ?_, ?_⟩
      · rw [hlen]
        omega
      · rw [Filling, hlen]
        omega
    · exact ⟨rfl, hstart⟩

variable {next : DesiredRequestState}

theorem applyRequestState_room
    (hlow : t.buf.len p ≤ writeBufferLowWaterLen) :
    Ends HasRoom (fun _ => True) (t.applyRequestState p next pops) := by
  obtain ⟨hroom, hfill⟩ := setInterested_room next.interested hlow
  refine Ends.require (fun _ => ?_) fun hno => absurd hroom hno
  refine Ends.require (fun _ => ?_) fun _ => nofun
  refine (applyRequests_room hfill).bind fun ⟨t₁, more⟩ hmore => ?_
  exact Ends.require (fun _ => trivial) fun hno => absurd hmore hno

/-! ## Webseeds have no write buffer -/

theorem webseed_reqsFree (p : Nat) : ReqsFree HasRoom fun t => t.isConn p = false where
  panic e h := by rcases h with h | h | h <;> simp [HasRoom, h]

theorem mustRequest_webseed (hweb : t.isConn p = false) :
    Ends HasRoom (fun x => x.2 = true) (t.mustRequest p r) := by
  refine shouldRequest_hasRoom.bind fun _ _ => ?_
  split_ifs
  · rfl
  · refine Ends.require (fun _ => ends_pure.mpr ?_) fun _ => PanicGroup.noConfusion
    have hkind : (t.addRequest p r).isConn p = false := hweb
    unfold sendRequest
    split
    · rename_i hconn
      rw [isConn, hconn] at hkind
      cases hkind
    · rfl

theorem applyRequests_webseed (hweb : t.isConn p = false) :
    Ends HasRoom (fun x => x.2 = true) (applyRequests p pops t) := by
  have hfree := webseed_reqsFree p
  refine applyRequests_ends (K := fun _ t => t.isConn p = false)
    (T := fun _ _ t => t.isConn p = false) (fun _ => rfl) (fun h => h)
    (fun h => hfree.unbooks.takeRequest h p _) (fun h _ => ?_) hweb
  refine ((mustRequest_webseed h).and (hfree.mustRequest h p _)).imp
    fun ⟨t₁, more⟩ ⟨hmore, ht₁⟩ => ?_
  cases hmore
  exact ht₁

theorem applyRequestState_webseed
    (hweb : t.isConn p = false) :
    Ends HasRoom (fun _ => True) (t.applyRequestState p next pops) := by
  have hroom : (t.setInterested p next.interested).2 = true := by
    unfold setInterested
    split_ifs
    · rfl
    · dsimp only
      split
      · rename_i hconn
        rw [isConn, hconn] at hweb
        cases hweb
      · rfl
  have hweb' := (webseed_reqsFree p).setInterested hweb p next.interested
  refine Ends.require (fun _ => ?_) fun hno => absurd hroom hno
  refine Ends.require (fun _ => ?_) fun _ => PanicGroup.noConfusion
  refine (applyRequests_webseed hweb').bind ?_
  rintro ⟨t₁, more⟩ hmore
  exact Ends.require (fun _ => trivial) fun hno => absurd hmore hno

/-! ## Runs -/

theorem maybeUpdate_room (input : StrategyInput)
    (happly : (t.ctl.needRequestUpdate p).isSome → ∀ next,
      Ends HasRoom (fun _ => True) (t.applyRequestState p next pops)) :
    Ends HasRoom (fun _ => True) (t.maybeUpdateActualRequestState p input pops) := by
  unfold maybeUpdateActualRequestState
  split_ifs with hclosed hnone
  · trivial
  · trivial
  · refine (getDesiredRequestState_ends nofun p input).bind fun next _ => ?_
    exact happly (by simpa [Option.isSome_iff_ne_none] using hnone) next

/-- The connection whose writer runs. -/
def Event.fills : Event → Option Nat
  | .fill p _ _ _ _ => some p
  | _ => none

/-- An update is applied only when the buffer is at the low-water mark or below. -/
def UpdatesLow (t : Torrent) (e : Event) : Prop :=
  ∀ p ∈ e.fills, (t.ctl.needRequestUpdate p).isSome → t.buf.len p ≤ writeBufferLowWaterLen

instance (t : Torrent) (e : Event) : Decidable (UpdatesLow t e) :=
  inferInstanceAs (Decidable (∀ p ∈ e.fills, _ → _))

theorem hasRoom_chunksOnly : ChunksOnly HasRoom UpdatesLow fun _ => True where
  panic _ hbuffer _ := hbuffer
  hashing _ _ _ _ _ := trivial
  setInfo _ _ _ := trivial
  pendAll _ := trivial
  write _ _ _ _ _ _ := trivial
  fill {t p input pops pex actions} _ hC := by
    refine maybeUpdate_room input fun hneed next => ?_
    exact applyRequestState_room (hC p rfl hneed)
  updateWebseed {t p input pops} _ hweb :=
    maybeUpdate_room input fun _ next => applyRequestState_webseed hweb
  overflow _ _ _ _ := nofun
  noPending _ _ _ _ := nofun
  writing _ _ _ := trivial
  stored _ _ := trivial
  failed _ _ _ := trivial

/-- **Request updates fit the write buffer** in every run that applies them at the low-water mark or
below. -/
theorem updates_fit_write_buffer (cfg : Config) (storage : Storage) (events : List Event)
    (hC : Meets step UpdatesLow (init cfg storage) events) :
    Ends (fun e => e ≠ .insufficientWriteBuffer ∧ e ≠ .couldntFill) (fun _ => True)
      (run step (init cfg storage) events) := by
  refine (hasRoom_chunksOnly.aboutData.dataOnly.keeps.run trivial hC).mono (fun e he => ?_)
    fun _ _ => trivial
  exact ⟨fun h => he (by rw [h]; rfl), fun h => he (by rw [h]; rfl)⟩

/-- A connection with everything is to be asked for a piece while `backlog` is in its buffer. -/
def updateWith (backlog : List Nat) : List Event :=
  [.setInfo smallInfo, .addConn 1 true false none,
    .message 1 { type := .haveAll } (.other false) 0, .downloadPieces 0 1,
    .message 1 { type := .unchoke } (.other false) 0] ++ backlog.map (.wrote 1) ++
  [.fill 1 {} [] 0 []]

/-- The peer has asked for two pieces of 16 KiB of metadata, and the answers are not yet sent. -/
theorem metadata_backlog_panics :
    FailsWith .insufficientWriteBuffer
      (run step (init smallConfig emptyStorage) (updateWith [16435, 16435])) := by
  decide

theorem update_fits :
    Reaches (fun t => t.buf.len 1 = 1027)
        (run step (init smallConfig emptyStorage) (updateWith [1000])) ∧
      Ends (fun e => e ≠ .insufficientWriteBuffer ∧ e ≠ .couldntFill) (fun _ => True)
        (run step (init smallConfig emptyStorage) (updateWith [1000])) :=
  ⟨by decide,
    updates_fit_write_buffer smallConfig emptyStorage (updateWith [1000]) (by decide)⟩

end ReliableBT
