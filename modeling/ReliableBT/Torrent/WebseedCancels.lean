import ReliableBT.Torrent.Ownership

/-!
# Cancelled webseed requests (`webseed-peer.go`)

A webseed acknowledges a cancel when the HTTP request for the chunk is over, with whatever result;
`_cancel` says that there will be an acknowledgement if the chunk is in `activeRequests`. But the
entry is deleted after `requestResultHandler` has released the lock, and before that the chunk can
be requested again.

* `Acknowledging`: every cancelled request of a webseed is running, and so is every outstanding one
  that is active; up to a request whose result is being handled.
* `webseed_cancels_acknowledged`: it holds in every run in which no update of a webseed requests a
  chunk whose last request has been answered and not yet been deleted from `activeRequests`.
* `webseed_cancel_lost`: a chunk is requested again in that window, and then from another peer. The
  cancel finds the old entry, and waits for a result that has been handled.
-/

namespace ReliableBT

open Torrent List

namespace Torrent

/-- The chunk is in the webseed's `activeRequests`. -/
def isActive (t : Torrent) (p r : Nat) : Prop := (p, t.requestIndexToRequest r) ∈ t.reqs.active

/-- An HTTP request for the chunk is in flight, its result not yet handled. -/
def isRunning (t : Torrent) (p r : Nat) : Prop := (p, t.requestIndexToRequest r) ∈ t.reqs.running

instance (t : Torrent) (p r : Nat) : Decidable (t.isActive p r) :=
  inferInstanceAs (Decidable (_ ∈ _))

instance (t : Torrent) (p r : Nat) : Decidable (t.isRunning p r) :=
  inferInstanceAs (Decidable (_ ∈ _))

end Torrent

/-- Every request of the peer that is active is running. -/
def ActiveRun (p : Nat) (t : Torrent) : Prop :=
  ∀ r ∈ (t.reqs.requests p).order, t.isActive p r → t.isRunning p r

instance (p : Nat) : DecidablePred (ActiveRun p) := fun _ =>
  inferInstanceAs (Decidable (∀ r ∈ _, _))

/-- Cancelled requests of webseeds run, and outstanding ones that are active do, but for the
requests in `X`. -/
structure RunningOf (X : Nat → Nat → Prop) (conn : Nat → Bool) (peerIds : List Nat)
    (toRequest : Nat → Request) (requests : Nat → OrderedBitmap) (cancelled : Nat → Bitmap)
    (active running : List (Nat × Request)) : Prop where
  known : ∀ p r, r ∈ requests p ∨ r ∈ cancelled p → p ∈ peerIds
  cancelled : ∀ p r, ¬ X p r → conn p = false → r ∈ cancelled p → (p, toRequest r) ∈ running
  requested : ∀ p r, ¬ X p r → conn p = false → r ∈ requests p → (p, toRequest r) ∈ active →
    (p, toRequest r) ∈ running

/-- The requests of the torrent's webseeds run that should, while the torrent is open. -/
def Acknowledging (X : Nat → Nat → Prop) (t : Torrent) : Prop :=
  t.closed = false → RunningOf X t.isConn t.avail.peerIds t.requestIndexToRequest t.reqs.requests
    t.reqs.cancelled t.reqs.active t.reqs.running

/-- No request is excepted. -/
abbrev NoRequest : Nat → Nat → Prop := fun _ _ => False

variable {X : Nat → Nat → Prop} {t t' : Torrent} {p r : Nat}

section Shrink

variable {conn : Nat → Bool} {peerIds : List Nat} {toRequest : Nat → Request}
  {requests requests' : Nat → OrderedBitmap} {cancelled cancelled' : Nat → Bitmap}
  {active active' running : List (Nat × Request)}

/-- Requests are taken off the books. One that is cancelled with the acknowledgement to come is
active. -/
theorem RunningOf.shrink (h : RunningOf X conn peerIds toRequest requests cancelled active running)
    (hreqs : ∀ p r, r ∈ requests' p → r ∈ requests p)
    (hcancelled : ∀ p r, r ∈ cancelled' p → r ∈ cancelled p ∨
      (r ∈ requests p ∧ (conn p = false → (p, toRequest r) ∈ active)))
    (hactive : ∀ x ∈ active', x ∈ active) :
    RunningOf X conn peerIds toRequest requests' cancelled' active' running where
  known p r hmem := by
    rcases hmem with hmem | hmem
    · exact h.known p r (.inl (hreqs p r hmem))
    · exact h.known p r ((hcancelled p r hmem).elim .inr fun hreq => .inl hreq.1)
  cancelled p r hX hweb hmem := (hcancelled p r hmem).elim (h.cancelled p r hX hweb)
    fun hreq => h.requested p r hX hweb hreq.1 (hreq.2 hweb)
  requested p r hX hweb hmem hact := h.requested p r hX hweb (hreqs p r hmem) (hactive _ hact)

end Shrink

theorem cancelAcked_webseed (hweb : t.isConn p = false) (hack : t.cancelAcked p r = true) :
    t.isActive p r := by
  unfold cancelAcked at hack
  unfold isConn at hweb
  cases hkind : t.kind p with
  | conn fast transmission =>
    rw [hkind] at hweb
    cases hweb
  | webseed conforming =>
    rw [hkind] at hack
    exact of_decide_eq_true hack

theorem acknowledging_unbooks (X : Nat → Nat → Prop) :
    Unbooks (fun _ => True) (Acknowledging X) where
  request _ _ := trivial
  withdrawn h _ hopen := (h hopen).shrink (fun _ _ hr => (mem_update_remove.mp hr).1)
    (fun _ _ hc => .inl hc) fun _ hx => hx
  cancelled {t p r} h hr hack hopen := by
    refine (h hopen).shrink (fun _ _ hr' => (mem_update_remove.mp hr').1) (fun q s hs => ?_)
      fun _ hx => hx
    rcases mem_update_cancel.mp hs with hold | ⟨rfl, rfl⟩
    · exact .inl hold
    · exact .inr ⟨hr, fun hweb => cancelAcked_webseed hweb hack⟩
  acknowledged h hopen := (h hopen).shrink (fun _ _ hr => hr)
    (fun _ _ hc => .inl (mem_update_uncancel.mp hc).1) fun _ hx => hx
  unexpected h := h

theorem Acknowledging.newPeer (h : Acknowledging X t) (hp : p ∉ t.avail.peerIds) (kind : PeerKind)
    (addr : Option (Nat × Nat)) (peerMaxRequests : Int) (choking : Bool) :
    Acknowledging X (t.newPeer p kind addr peerMaxRequests choking) := by
  intro hopen
  have ht := h hopen
  have hold : ∀ q r, r ∈ t.reqs.requests q ∨ r ∈ t.reqs.cancelled q →
      (t.newPeer p kind addr peerMaxRequests choking).isConn q = t.isConn q := fun q r hmem =>
    newPeer_isConn t p kind addr peerMaxRequests choking fun heq => hp (heq ▸ ht.known q r hmem)
  exact {
    known := fun q r hmem => mem_cons_of_mem p (ht.known q r hmem)
    cancelled := fun q r hX hweb hmem =>
      ht.cancelled q r hX (hold q r (.inr hmem) ▸ hweb) hmem
    requested := fun q r hX hweb hmem =>
      ht.requested q r hX (hold q r (.inl hmem) ▸ hweb) hmem }

theorem acknowledging_requestsOnly (X : Nat → Nat → Prop) :
    RequestsOnly (fun _ => True) (Acknowledging X) where
  toUnbooks := acknowledging_unbooks X
  stopped _ := nofun
  addConn {_ _ _ _ addr} h hp := h.newPeer hp (.conn _ _) addr 250 true
  addWebSeed {_ _ _ addr} h hp := h.newPeer hp (.webseed _) addr 128 false

/-! ## Updates -/

/-- In the course of an update of `p`: if what is requested from `p` is as it should be, everything
is. For a connection there is nothing to be seen to. -/
structure UpdatingSeed (p : Nat) (conn : Bool) (t : Torrent) : Prop where
  conn_eq : t.isConn p = conn
  known : p ∈ t.avail.peerIds
  ack : (conn = false → ActiveRun p t) → Acknowledging NoRequest t

theorem activeRun_iff : ActiveRun p t ↔ ∀ r ∈ t.reqs.requests p, t.isActive p r → t.isRunning p r :=
  forall_congr' fun r => imp_congr_left ((t.reqs.requests p).mem_order r)

theorem Elsewhere.activeRun (h : Elsewhere p t t') : ActiveRun p t' ↔ ActiveRun p t := by
  obtain ⟨_, _, _, _, rfl, hreqs, -, -, -, hactive, hrunning⟩ := h
  rw [activeRun_iff, activeRun_iff]
  simp only [hreqs, isActive, hactive, isRunning, hrunning]
  exact Iff.rfl

theorem updatingSeed_aside (p : Nat) (conn : Bool) : Aside (UpdatingSeed p conn) where
  ctl h _ _ := ⟨h.conn_eq, h.known, h.ack⟩
  buf h _ _ := ⟨h.conn_eq, h.known, h.ack⟩
  up h _ _ := ⟨h.conn_eq, h.known, h.ack⟩

namespace UpdatingSeed

variable {conn : Bool}

theorem takeRequest (h : UpdatingSeed p conn t) (r : Nat) :
    Gives (fun x => ∀ t' ∈ x, UpdatingSeed p conn t') (t.takeRequest p r) := by
  have helse : Gives _ (t.takeRequest p r) :=
    Elsewhere.takeRequest (p := p) (fun _ _ => trivial) r
  have hack : Gives (fun x => ∀ t' ∈ x, (conn = false → ActiveRun p t) →
      Acknowledging NoRequest t') (t.takeRequest p r) := by
    by_cases hrun : conn = false → ActiveRun p t
    · exact ((acknowledging_unbooks NoRequest).takeRequest (h.ack hrun) p r).imp
        fun _ hx t' ht' _ => hx t' ht'
    · exact helse.imp fun _ _ _ _ hrun' => absurd hrun' hrun
  refine (helse.and hack).imp fun x ⟨hx, hack⟩ t' ht' => ?_
  have he := hx t' ht'
  refine ⟨?_, ?_, fun hrun => hack t' ht' fun hconn => he.activeRun.mp (hrun hconn)⟩
  · obtain ⟨_, _, _, _, rfl, -⟩ := he
    exact h.conn_eq
  · obtain ⟨_, _, _, _, rfl, -⟩ := he
    exact h.known

theorem addRequest (h : UpdatingSeed p conn t) (r : Nat) :
    UpdatingSeed p conn (t.addRequest p r) := by
  refine ⟨h.conn_eq, h.known, fun hrun hopen => ?_⟩
  have hold : conn = false → ActiveRun p t := fun hconn => activeRun_iff.mpr fun s hs =>
    activeRun_iff.mp (hrun hconn) s (mem_update_add.mpr (.inl hs))
  have ht := h.ack hold hopen
  exact { ht with
    known := fun q s hmem => by
      rcases hmem with hmem | hmem
      · rcases mem_update_add.mp hmem with hmem | ⟨rfl, rfl⟩
        · exact ht.known q s (.inl hmem)
        · exact h.known
      · exact ht.known q s (.inr hmem)
    requested := fun q s hX hweb hmem hactive => by
      rcases mem_update_add.mp hmem with hold | ⟨rfl, rfl⟩
      · exact ht.requested q s hX hweb hold hactive
      · exact activeRun_iff.mp (hrun (h.conn_eq.symm.trans hweb)) s hmem hactive }

theorem mustRequest (h : UpdatingSeed p conn t) (r : Nat) :
    Gives (fun x => UpdatingSeed p conn x.1) (t.mustRequest p r) := by
  have hshould : Gives (fun _ => True) (t.shouldRequest p r) := by
    cases t.shouldRequest p r <;> trivial
  refine hshould.bind fun _ _ => ?_
  split_ifs
  · exact h
  · exact Ends.require (fun _ => (updatingSeed_aside p conn).sendRequest (h.addRequest r) p)
      fun _ => trivial

end UpdatingSeed

theorem update_acknowledging (h : Acknowledging NoRequest t) (hp : p ∈ t.avail.peerIds)
    (input : StrategyInput) (pops : List Nat) :
    Gives (fun t' => (t.isConn p = false → ActiveRun p t') →
      Acknowledging NoRequest t') (t.maybeUpdateActualRequestState p input pops) := by
  have haside := updatingSeed_aside p (t.isConn p)
  have hstart : UpdatingSeed p (t.isConn p) t := ⟨rfl, hp, fun _ => h⟩
  unfold maybeUpdateActualRequestState
  split_ifs
  · exact fun _ => h
  · exact fun _ => h
  · refine (getDesiredRequestState_ends trivial p input).bind fun next _ => ?_
    refine Ends.require (fun _ => ?_) fun _ => trivial
    refine Ends.require (fun _ => ?_) fun _ => trivial
    refine (applyRequests_ends (Q := fun x => UpdatingSeed p (t.isConn p) x.1)
      (K := fun _ => UpdatingSeed p (t.isConn p)) (T := fun _ _ => UpdatingSeed p (t.isConn p))
      (fun h => h) (fun h => h) (fun h => h.takeRequest _)
      (fun h _ => (h.mustRequest _).imp fun _ hx => by split_ifs <;> exact hx)
      (haside.setInterested hstart p next.interested)).bind fun ⟨t₁, more⟩ h₁ => ?_
    exact Ends.require (fun _ => (haside.requestsUpdated h₁ p _).ack) fun _ => trivial

/-! ## Results -/

/-- The chunk is neither requested from the peer nor cancelled there. -/
def Gone (p r : Nat) (t : Torrent) : Prop := r ∉ t.reqs.requests p ∧ r ∉ t.reqs.cancelled p

theorem gone_requestsOnly (p r : Nat) : RequestsOnly (fun _ => True) (Gone p r) where
  request _ _ := trivial
  withdrawn h _ := ⟨fun hr => h.1 (mem_update_remove.mp hr).1, h.2⟩
  cancelled {t q s} h hs _ := by
    refine ⟨fun hr => h.1 (mem_update_remove.mp hr).1, fun hc => ?_⟩
    rcases mem_update_cancel.mp hc with hc | ⟨rfl, rfl⟩
    · exact h.2 hc
    · exact h.1 hs
  acknowledged h := ⟨h.1, fun hc => h.2 (mem_update_uncancel.mp hc).1⟩
  unexpected h := h

section

variable (hdisjoint : r ∈ t.reqs.requests p → r ∉ t.reqs.cancelled p)
include hdisjoint

theorem gone_taken :
    Gives (fun x => if x.2 then Gone p r x.1 else
      Gone p r (x.1.removeCancelled p r).1) (t.deleteRequest p r) := by
  unfold deleteRequest
  split_ifs with hr
  · trivial
  · exact ⟨fun hr' => (mem_update_remove.mp hr').2 ⟨rfl, rfl⟩, hdisjoint hr⟩
  · change Gone p r (t.removeCancelled p r).1
    unfold removeCancelled
    split_ifs with hc
    · exact ⟨hr, fun hc' => (mem_update_uncancel.mp hc').2 ⟨rfl, rfl⟩⟩
    · exact ⟨hr, hc⟩

theorem gone_rejected : Gives (fun x => Gone p r x.1) (t.remoteRejectedRequest p r) := by
  have hbooks := (gone_requestsOnly p r).toUnbooks
  have hreject : Gives (fun x => Gone p r x.1) (t.rejectRequest p r) := by
    refine (gone_taken hdisjoint).bind fun ⟨t₁, deleted⟩ h₁ => ?_
    cases deleted with
    | true => exact hbooks.decPeakRequests h₁ p
    | false => exact h₁
  refine hreject.bind fun ⟨t₁, valid⟩ h₁ => ?_
  cases valid with
  | false => exact h₁
  | true =>
    exact (hbooks.decExpectedChunkReceive (hbooks.updateIfLow h₁ p _) p r).bind
      fun _ h₂ => ends_pure.mpr h₂

theorem gone_satisfied : Gives (Gone p r) (t.requestSatisfied p r) := by
  have htake : Gives (fun x => Gone p r x.1) (t.takeIntended p r) := by
    refine (gone_taken hdisjoint).bind fun ⟨t₁, deleted⟩ h₁ => ?_
    cases deleted with
    | true => exact h₁
    | false => exact h₁
  refine htake.bind fun ⟨t₁, intended⟩ h₁ => ?_
  cases intended with
  | true => exact (gone_requestsOnly p r).toUnbooks.updateIfLow h₁ p _
  | false => exact h₁

theorem gone_received (index begin : Nat) (data : List UInt8)
    (hr : t.requestIndexFromRequest ⟨index, begin, u32 data.length⟩ = r) (now : Nat) :
    Gives (fun x => x.2 = none → Gone p r x.1) (t.receiveChunk p index begin data now) := by
  have hgone := gone_requestsOnly p r
  unfold receiveChunk
  dsimp only
  rw [hr]
  split
  · exact nofun
  · split_ifs with hexpect
    · exact nofun
    · rw [decExpectedChunkReceive, if_neg hexpect]
      refine (gone_satisfied (t := t.unexpect p r) hdisjoint).bind fun t₁ h₁ => ?_
      split_ifs
      · exact fun _ => h₁
      · refine (hgone.dataFree.writesFree.beginWrite h₁ _ now
          fun h' => hgone.toUnbooks.cancelOther h' _ _).bind fun t₂ h₂ => ?_
        exact fun _ => h₂

end

/-- A request that does not run any more. All other requests run as before. -/
theorem Acknowledging.stopped (h : Acknowledging NoRequest t) (howned : Owned AnyRequest t)
    {rq : Request} (hindex : t.requestIndexFromRequest rq = r) :
    Acknowledging (fun q s => q = p ∧ s = r)
      { t with reqs.running := t.reqs.running.erase (p, rq) } := by
  intro hopen
  have hother : ∀ q s, ¬ (q = p ∧ s = r) → s ∈ t.reqs.requests q ∨ s ∈ t.reqs.cancelled q →
      t.isRunning q s → (q, t.requestIndexToRequest s) ∈ t.reqs.running.erase (p, rq) := by
    intro q s hne hs hrunning
    refine (mem_erase_of_ne fun heq => hne ?_).mpr hrunning
    rw [Prod.mk.injEq] at heq
    refine ⟨heq.1, ?_⟩
    rw [← (howned.valid q s hs).fromRequest, heq.2, hindex]
  exact {
    known := (h hopen).known
    cancelled := fun q s hne hweb hs =>
      hother q s hne (.inr hs) ((h hopen).cancelled q s id hweb hs)
    requested := fun q s hne hweb hs hactive =>
      hother q s hne (.inl hs) ((h hopen).requested q s id hweb hs hactive) }

theorem Acknowledging.of_gone (h : Acknowledging (fun q s => q = p ∧ s = r) t)
    (hgone : Gone p r t) : Acknowledging NoRequest t := fun hopen =>
  { h hopen with
    cancelled := fun q s _ hweb hs => (h hopen).cancelled q s (fun ⟨hq, hr⟩ =>
      hgone.2 (hr ▸ hq ▸ hs)) hweb hs
    requested := fun q s _ hweb hs => (h hopen).requested q s (fun ⟨hq, hr⟩ =>
      hgone.1 (hr ▸ hq ▸ hs)) hweb hs }

theorem result_acknowledging (h : Acknowledging NoRequest t) (howned : Owned AnyRequest t)
    {rq : Request} (hrun : (p, rq) ∈ t.reqs.running) (result : Option (List UInt8)) (now : Nat) :
    Gives (Acknowledging NoRequest) (t.requestResultHandler p rq result now) := by
  obtain ⟨-, -, r, hreq, hmem⟩ := howned.running _ hrun
  dsimp only at hreq hmem
  have hindex : t.requestIndexFromRequest rq = r := hreq ▸ (howned.valid p r hmem).fromRequest
  have ht₁ := h.stopped (p := p) howned hindex
  have hdisjoint := howned.disjoint p r
  have hbooks := acknowledging_requestsOnly fun q s => q = p ∧ s = r
  unfold requestResultHandler
  dsimp only
  split_ifs with hclosed
  · exact fun hopen => absurd (hclosed.symm.trans hopen) Bool.noConfusion
  · cases result with
    | none =>
      have hindex₁ : { t with reqs.running := t.reqs.running.erase (p, rq) }.requestIndexFromRequest
          rq = r := hindex
      dsimp only
      rw [hindex₁]
      refine ((hbooks.toUnbooks.remoteRejectedRequest ht₁ p r).and
        (gone_rejected hdisjoint)).bind ?_
      rintro ⟨t₂, valid⟩ ⟨ht₂, hgone⟩
      exact Ends.require (fun _ => ht₂.of_gone hgone) fun _ => trivial
    | some bytes =>
      have hgone := gone_received (t := { t with reqs.running := t.reqs.running.erase (p, rq) })
        hdisjoint rq.index rq.begin bytes hindex now
      refine ((hbooks.receiveChunk ht₁ p rq.index rq.begin bytes now).and hgone).bind ?_
      rintro ⟨t₂, err⟩ ⟨ht₂, hgone⟩
      exact Ends.require (fun hnone => ht₂.of_gone (hgone hnone)) fun _ => trivial

/-! ## Runs -/

/-- The webseed that an event updates. -/
def Event.updates : Event → Option Nat
  | .updateWebseed p _ _ => some p
  | _ => none

/-- After an update of a webseed, each chunk requested from it that is in `activeRequests` is one
whose result is still to come. -/
def AsksAnew (t : Torrent) (e : Event) : Prop :=
  ∀ p ∈ e.updates, Ends (fun _ => True) (ActiveRun p) (t.step e)

instance (t : Torrent) (e : Event) : Decidable (AsksAnew t e) :=
  inferInstanceAs (Decidable (∀ p ∈ e.updates, _))

theorem acknowledging_aboutRequests : AboutRequests (fun _ => True)
    (fun t e => AsksAnew t e ∧ Owned AnyRequest t ∧ Ground none t)
    (Acknowledging NoRequest) where
  toRequestsOnly := acknowledging_requestsOnly NoRequest
  setInfo {t info} h hinfo hC hopen := by
    -- without an info there are no requests
    have hnone : ∀ p r, ¬ (r ∈ t.reqs.requests p ∨ r ∈ t.reqs.cancelled p) := by
      intro p r hmem
      have hcpp := (hC.2.1.valid p r hmem).2.1
      simp [chunksPerRegularPiece, hinfo] at hcpp
    exact {
      known := (h hopen).known
      cancelled := fun p r _ _ hmem => absurd (.inr hmem) (hnone p r)
      requested := fun p r _ _ hmem => absurd (.inl hmem) (hnone p r) }
  fill {t p input pops _ _} h hp hC := by
    have hground := hC.2.2
    refine (update_acknowledging h (hground.known p (mem_append_left _ hp)) input pops).imp
      fun t' ht' => ht' fun hconn => ?_
    rw [hground.conn p hp] at hconn
    cases hconn
  updateWebseed {t p input pops} h hp hweb hC := by
    have hground := hC.2.2
    have hrun := hC.1 p rfl
    rw [step, if_neg (not_not.mpr hp)] at hrun
    exact ((update_acknowledging h (hground.known p (mem_append_right _ hp)) input pops).and
      hrun).imp fun t' ht' => ht'.1 fun _ => ht'.2
  webseedRequest {t p} h hp hweb := by
    unfold webseedRequest
    split
    · exact h
    · split_ifs
      · trivial
      · intro hopen
        exact {
          known := (h hopen).known
          cancelled := fun q r hX hweb hmem =>
            mem_cons_of_mem _ ((h hopen).cancelled q r hX hweb hmem)
          requested := fun q r hX hweb hmem hactive => by
            rcases mem_cons.mp hactive with heq | hactive
            · exact heq ▸ mem_cons_self
            · exact mem_cons_of_mem _ ((h hopen).requested q r hX hweb hmem hactive) }
  webseedResult h hrun hC := result_acknowledging h hC.2.1 hrun _ _
  webseedDone h _ hopen := (h hopen).shrink (fun _ _ hr => hr) (fun _ _ hc => .inl hc)
    fun _ hx => mem_of_mem_erase hx

theorem acknowledging_init (cfg : Config) (storage : Storage) :
    Acknowledging NoRequest (.init cfg storage) := fun _ =>
  { known := fun _ _ hmem => (hmem.elim not_mem_nil not_mem_nil).elim
    cancelled := fun _ _ _ _ hmem => (not_mem_nil hmem).elim
    requested := fun _ _ _ _ hmem => (not_mem_nil hmem).elim }

/-- **Webseed cancels are acknowledged** in every run whose updates of webseeds request no chunk in
the time between a result and the end of its `activeRequests` entry: while the torrent is open, an
HTTP request is in flight for every chunk in a webseed's `Cancelled`. -/
theorem webseed_cancels_acknowledged (cfg : Config) (storage : Storage) (events : List Event)
    (hC : Meets step AsksAnew (init cfg storage) events) :
    Gives (fun t => t.closed = false → ∀ p, t.isConn p = false → ∀ r ∈ t.reqs.cancelled p,
        (p, t.requestIndexToRequest r) ∈ t.reqs.running)
      (run step (init cfg storage) events) := by
  have hall : Meets step (fun t e => AsksAnew t e ∧ Owned AnyRequest t ∧ Ground none t)
      (init cfg storage) events := by
    refine hC.imp_of_keeps (I := fun t => Owned AnyRequest t ∧ Ground none t) (fun t e h _ => ?_)
      (fun t e h hC => ⟨hC, h⟩) ⟨owned_init cfg storage, ground_init cfg storage⟩
    exact ((owned_aboutPeers.keeps.step h.2 h.1 (e := e) trivial).and
      (ground_keeps.step h.2 h.2 (C := fun _ _ => True) (e := e) trivial)).mono
      (fun _ _ => trivial) fun _ h => h
  exact (acknowledging_aboutRequests.aboutPeers.keeps.run (acknowledging_init cfg storage)
    hall).imp fun t ⟨h, _⟩ hopen p hweb r hr => (h hopen).cancelled p r id hweb hr

/-- One piece of one chunk. -/
def oneChunk : Info where
  pieceLength := 4
  fileLengths := [4]
  numPieces := 1
  files_ne := by decide
  valid := by decide

/-- A webseed is asked for the chunk, and its request starts. -/
def seedAsked : List Event :=
  [.setInfo oneChunk, .addWebSeed 1 true none, .downloadPieces 0 1, .updateWebseed 1 {} [],
    .webseedRequest 1]

/-- A connection with everything joins and is asked for the chunk. -/
def stolenBy (p : Nat) : List Event :=
  [.addConn p true false none, .message p { type := .haveAll } (.other false) 0,
    .message p { type := .unchoke } (.other false) 0, .fill p {} [] 0 []]

/-- **A cancel is never acknowledged.** The first request fails, the chunk is requested again before
its entry is deleted, and is then taken over by a connection: nothing runs, and the cancel
waits. It still does when the entry has been deleted. -/
theorem webseed_cancel_lost :
    Reaches (fun t => t.closed = false ∧ t.isConn 1 = false ∧ 0 ∈ t.reqs.cancelled 1 ∧
        t.reqs.running = [] ∧ t.reqs.active = [])
      (run step (init smallConfig emptyStorage)
        (seedAsked ++ [.webseedResult 1 ⟨0, 0, 4⟩ none 0, .updateWebseed 1 {} []] ++ stolenBy 2 ++
          [.webseedDone 1 ⟨0, 0, 4⟩])) := by
  decide

theorem seedAsked_acknowledged :
    Reaches (fun t => t.closed = false ∧ t.isConn 1 = false ∧ 0 ∈ t.reqs.cancelled 1)
      (run step (init smallConfig emptyStorage) (seedAsked ++ stolenBy 2)) ∧
    Gives (fun t => t.closed = false → ∀ p, t.isConn p = false → ∀ r ∈ t.reqs.cancelled p,
        (p, t.requestIndexToRequest r) ∈ t.reqs.running)
      (run step (init smallConfig emptyStorage) (seedAsked ++ stolenBy 2)) :=
  ⟨by decide, webseed_cancels_acknowledged smallConfig emptyStorage
    (seedAsked ++ stolenBy 2) (by decide)⟩

end ReliableBT
