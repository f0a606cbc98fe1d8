import ReliableBT.Torrent.Baseline
import ReliableBT.Torrent.Limit
import ReliableBT.Torrent.Pending

/-!
# Only legal requests (`shouldRequest`, `applyRequestState`, `GetRequestablePieces`)

`request` panics if `shouldRequest` has anything against a request, and `mustRequest` if there are
too many. Nothing of this is checked by `applyRequestState`; it relies on what
`getDesiredRequestState` has let through. Part of that is read off the torrent on the spot, but that
a piece is not being hashed and not queued is only known from `_pendingPieces`, and that a request
index is for a chunk of the piece it was made from only if it did not wrap.

* `LegalRequest`: what a request should satisfy. `LegalRequest.mustRequest`: then it can be made.
* `desired_legal`: what `getDesiredRequestState` lets through is legal in the same state;
  `mustRequestCalls_legal`: it is still legal when the request is made.
* `only_legal_requests`: in every run whose infos are regular each call of `mustRequest` is for a
  legal request, and the panics of `shouldRequest`, `request` and `mustRequest` are not reached.
* `wrapped_request_panics`: an info with more chunks than request indexes, where the index of a
  chunk of the last piece is that of a chunk of the first.
-/

open List Nat Option

namespace ReliableBT

open Torrent

/-- What speaks for a request of chunk `r` from peer `p`: the chunk is valid and of a piece that the
peer has; the piece is not complete, not being hashed and not queued; no cancel of the chunk is
waiting for its acknowledgement; the peer is active, open, and not choking us unless the piece is
allowed fast or the chunk is requested. -/
structure MayBeRequested (t : Torrent) (p r : Nat) : Prop where
  chunks : t.chunksPerRegularPiece ≠ 0
  piece : t.pieceIndexOfRequestIndex r < t.numPieces
  valid : t.checkValidReceiveChunk (t.requestIndexToRequest r) = none
  has : t.peerHasPiece p (t.pieceIndexOfRequestIndex r) = true
  incomplete : t.pieceComplete (t.pieceIndexOfRequestIndex r) = false
  notHashing : t.hash.hashing (t.pieceIndexOfRequestIndex r) = false
  notQueued : t.pieceIndexOfRequestIndex r ∉ t.hash.queued
  notCancelled : r ∉ t.reqs.cancelled p
  active : p ∈ t.iterPeers
  isOpen : t.avail.closed p = false
  unchoked : t.ctl.peerChoking p = false ∨
    t.pieceIndexOfRequestIndex r ∈ t.ctl.peerAllowedFast p ∨ r ∈ t.reqs.requests p

/-- A request that should be made: there are not too many, either. -/
structure LegalRequest (t : Torrent) (p r : Nat) : Prop extends MayBeRequested t p r where
  limit : (t.reqs.requests p).card < t.nominalMaxRequests p

/-- The calls of `mustRequest` in the loop of `applyRequestState`, with the states they are made
in. -/
def Torrent.mustRequestCalls (p : Nat) : List Nat → Torrent → List (Torrent × Nat)
  | [], _ => []
  | req :: pops, t =>
    if t.nominalMaxRequests p ≤ ((t.reqs.requests p).card + (t.reqs.cancelled p).card : Nat) then
      []
    else
      match t.takeRequest p req with
      | .error _ => []
      | .ok none => mustRequestCalls p pops t
      | .ok (some t) => (t, req) ::
        match t.mustRequest p req with
        | .ok (t, true) => mustRequestCalls p pops t
        | _ => []

variable {t t' : Torrent} {p r : Nat} {info : Info}

theorem LegalRequest.mustRequest (h : LegalRequest t p r) :
    t.mustRequest p r = .ok (if r ∈ t.reqs.requests p then (t, true)
      else (t.addRequest p r).sendRequest p) := by
  have hfault : t.requestFault p r = none := by
    have hchoked : ¬ (t.ctl.peerChoking p = true ∧
        t.pieceIndexOfRequestIndex r ∉ t.ctl.peerAllowedFast p ∧ r ∉ t.reqs.requests p) := by
      rintro ⟨hchoking, hfast, hrequest⟩
      rcases h.unchoked with hfree | hin | hin
      · rw [hfree] at hchoking
        cases hchoking
      · exact hfast hin
      · exact hrequest hin
    simp [requestFault, h.valid, h.notCancelled, h.has, h.active, h.isOpen, h.notHashing,
      h.notQueued, hchoked]
  have hshould : t.shouldRequest p r = .ok () := by
    rw [shouldRequest, if_neg h.chunks, if_neg (not_le.mpr h.piece), hfault]
  rw [Torrent.mustRequest, hshould]
  change (if r ∈ t.reqs.requests p then _ else _) = _
  split_ifs
  · rfl
  · rw [require, if_pos h.limit]
    rfl

/-! ## What is desired -/

theorem undirtied_begin (hinfo : t.info = some info) (hreg : info.Regular t.cfg.chunkSize)
    {i : Nat} (hi : i < info.numPieces) (hr : r ∈ t.undirtiedRequestIndexes i) :
    r % info.chunksPerRegularPiece t.cfg.chunkSize * t.cfg.chunkSize < info.pieceLen i := by
  have hplace : r % info.chunksPerRegularPiece t.cfg.chunkSize <
      (info.pieceLen i + t.cfg.chunkSize - 1) / t.cfg.chunkSize := by
    have hrange := undirtied_range hinfo hreg hi hr
    have hdiv := div_add_mod r (info.chunksPerRegularPiece t.cfg.chunkSize)
    rw [undirtied_piece hinfo hreg hi hr, mul_comm] at hdiv
    omega
  exact (lt_roundUp_iff t.cfg.chunkSize_pos).mp hplace

theorem Info.Regular.chunksPerRegularPiece_eq_zero_iff {cs : Nat} (h : info.Regular cs)
    (hcs : 0 < cs) : info.chunksPerRegularPiece cs = 0 ↔ info.pieceLength = 0 := by
  rw [h.chunksPerRegularPiece_eq hcs, Nat.div_eq_zero_iff]
  omega

theorem undirtied_valid (hinfo : t.info = some info) (hreg : info.Regular t.cfg.chunkSize)
    {i : Nat} (hi : i < info.numPieces) (hr : r ∈ t.undirtiedRequestIndexes i) :
    info.pieceLength ≠ 0 ∧ t.checkValidReceiveChunk (t.requestIndexToRequest r) = none := by
  have hbegin := undirtied_begin hinfo hreg hi hr
  have hlen : info.pieceLen i ≤ info.pieceLength := Info.pieceLen_le_pieceLength i
  have hlength : info.pieceLength ≠ 0 := by omega
  have hchunks : 0 < info.chunksPerRegularPiece t.cfg.chunkSize :=
    pos_of_ne_zero fun hzero =>
      hlength ((hreg.chunksPerRegularPiece_eq_zero_iff t.cfg.chunkSize_pos).mp hzero)
  have hindex : i < 2 ^ 32 := hi.trans_le ((Nat.le_mul_of_pos_right _ hchunks).trans hreg.2.le)
  have hreq : (t.requestIndexToRequest r).index = i ∧ (t.requestIndexToRequest r).begin =
      r % info.chunksPerRegularPiece t.cfg.chunkSize * t.cfg.chunkSize := by
    simp only [requestIndexToRequest, hinfo, map_some, getD_some]
    refine ⟨?_, Info.requestIndexToRequest_begin hchunks⟩
    rw [Info.requestIndexToRequest, Info.pieceIndexOfRequestIndex,
      undirtied_piece hinfo hreg hi hr, u32_of_lt hindex]
  refine ⟨hlength, ?_⟩
  rw [checkValidReceiveChunk, hreq.1, hreq.2]
  simp [haveInfo, numPieces, pieceLength, hinfo, not_le.mpr hi, not_le.mpr hbegin]

theorem emitted_wanted {input : StrategyInput} {item : OrderItem}
    (hitem : item ∈ t.getRequestablePieces input) (hown : item.infoHash = t.cfg.infoHash) :
    item.index ∈ t.pendingPieces ∧ t.pieceComplete item.index = false := by
  have hkept := (emitted_entry hitem hown).2.2
  simp only [ignorePiece, wantPieceIndex, Bool.or_eq_false_iff, Bool.not_eq_false',
    decide_eq_true_eq, decide_eq_false_iff_not] at hkept
  refine ⟨hkept.1, ?_⟩
  by_contra hcomplete
  exact hkept.2 (by simp [pieceNumPendingChunks, hcomplete])

/-- The torrent is regular, and a pending piece has a priority. -/
def Sound (t : Torrent) : Prop :=
  t.closed = false → ∀ info, t.info = some info → info.Regular t.cfg.chunkSize ∧
    (info.pieceLength ≠ 0 → ∀ i < info.numPieces, i ∈ t.pendingPieces →
      t.uncachedPriority i ≠ .none)

theorem idle_of_uncachedPriority {i : Nat} (h : t.uncachedPriority i ≠ .none) :
    t.hash.hashing i = false ∧ i ∉ t.hash.queued := by
  unfold uncachedPriority at h
  split_ifs at h with hbusy
  · exact absurd rfl h
  · simp only [Bool.or_eq_true, decide_eq_true_eq, not_or] at hbusy
    exact ⟨by simpa using hbusy.1.1.1, hbusy.2⟩

theorem desired_legal (hsound : Sound t) (hactive : p ∈ t.iterPeers)
    (hopen : t.avail.closed p = false) {input : StrategyInput} {desired : DesiredRequestState}
    (hdesired : t.getDesiredRequestState p input = .ok desired) (hr : r ∈ desired.requests) :
    MayBeRequested t p r := by
  unfold getDesiredRequestState at hdesired
  split_ifs at hdesired with hno hclosed
  · cases hdesired
    cases hr
  · cases hdesired
    cases hr
  · cases hdesired
    obtain ⟨item, hitem, hr⟩ := mem_flatMap.mp hr
    obtain ⟨hr, hmay⟩ := mem_filter.mp hr
    obtain ⟨hemit, hown⟩ := mem_filter.mp hitem
    rw [Bool.and_eq_true, decide_eq_true_eq] at hown
    obtain ⟨hlt, -⟩ := emitted_entry hemit hown.1
    obtain ⟨hpending, hincomplete⟩ := emitted_wanted hemit hown.1
    cases hinfo : t.info with
    | none => simp [haveInfo, hinfo] at hno
    | some info =>
      have hnum : t.numPieces = info.numPieces := by simp [numPieces, hinfo]
      obtain ⟨hreg, hprio⟩ := hsound (by simpa using hclosed) info hinfo
      have hpiece : t.pieceIndexOfRequestIndex r = item.index := by
        simpa [pieceIndexOfRequestIndex, chunksPerRegularPiece, hinfo] using
          undirtied_piece hinfo hreg (hnum ▸ hlt) hr
      obtain ⟨hlength, hvalid⟩ := undirtied_valid hinfo hreg (hnum ▸ hlt) hr
      have hpriority := hprio hlength _ (hnum ▸ hlt) hpending
      have hidle := idle_of_uncachedPriority hpriority
      simp only [mayRequest, Bool.and_eq_true, Bool.or_eq_true, decide_eq_true_eq,
        Bool.not_eq_true', Bool.and_eq_false_iff, decide_eq_false_iff_not, not_not] at hmay
      exact {
        chunks := by
          simpa [chunksPerRegularPiece, hinfo,
            hreg.chunksPerRegularPiece_eq_zero_iff t.cfg.chunkSize_pos] using hlength
        piece := hpiece ▸ hlt
        valid := hvalid
        has := hpiece ▸ hown.2
        incomplete := hpiece ▸ hincomplete
        notHashing := hpiece ▸ hidle.1
        notQueued := hpiece ▸ hidle.2
        notCancelled := hmay.1.2
        active := hactive
        isOpen := hopen
        unchoked := by
          rw [hpiece]
          exact hmay.1.1.elim (fun hfast => .inr (.inl hfast)) fun hfree =>
            hfree.elim .inl fun hreq => .inr (.inr hreq) }

/-! ## The requests of an update -/

/-- In the course of an update of `p`: requests have been added to those it had. -/
def Underway (p : Nat) (t t' : Torrent) : Prop :=
  ∃ reqs buf ctl, t' = { t with reqs := reqs, buf := buf, ctl := ctl } ∧
    (∀ r ∈ t.reqs.requests p, r ∈ reqs.requests p) ∧
    reqs.cancelled p = t.reqs.cancelled p ∧ ctl.peerChoking p = t.ctl.peerChoking p ∧
    ctl.peerAllowedFast p = t.ctl.peerAllowedFast p

namespace Underway

theorem setInterested (p : Nat) (b : Bool) : Underway p t (t.setInterested p b).1 := by
  unfold Torrent.setInterested
  split_ifs
  · exact ⟨_, _, _, rfl, fun _ h => h, rfl, rfl, rfl⟩
  · dsimp only
    split <;> exact ⟨_, _, _, rfl, fun _ h => h, rfl, rfl, rfl⟩

theorem elsewhere (h : Underway p t t') {t₁ : Torrent} (he : Elsewhere p t' t₁) :
    Underway p t t₁ := by
  obtain ⟨_, _, _, rfl, hreqs, hcancelled, hchoking, hfast⟩ := h
  obtain ⟨_, _, _, _, rfl, hreqs', hcancelled', -⟩ := he
  exact ⟨_, _, _, rfl, fun r hr => hreqs' ▸ hreqs r hr, hcancelled'.trans hcancelled, hchoking,
    hfast⟩

theorem request (h : Underway p t t') (r : Nat) :
    Underway p t ((t'.addRequest p r).sendRequest p).1 := by
  obtain ⟨_, _, _, rfl, hreqs, hcancelled, hchoking, hfast⟩ := h
  unfold sendRequest
  split <;>
    exact ⟨_, _, _, rfl, fun r hr => mem_update_add.mpr (.inl (hreqs r hr)), hcancelled, hchoking,
      hfast⟩

end Underway

/-- A request that may be made when the update begins may still be made in its course. -/
theorem MayBeRequested.underway (h : MayBeRequested t p r) (hu : Underway p t t') :
    MayBeRequested t' p r := by
  obtain ⟨_, _, _, rfl, hreqs, hcancelled, hchoking, hfast⟩ := hu
  exact { h with
    notCancelled := by
      rw [hcancelled]
      exact h.notCancelled
    unchoked := by
      change _ = false ∨ t.pieceIndexOfRequestIndex r ∈ _ ∨ r ∈ _
      rw [hchoking, hfast]
      exact h.unchoked.imp_right (Or.imp_right (hreqs r)) }

theorem mustRequestCalls_legal (pops : List Nat) (hu : Underway p t t')
    (hpops : ∀ r ∈ pops, MayBeRequested t p r) :
    ∀ x ∈ mustRequestCalls p pops t', LegalRequest x.1 p x.2 := by
  induction pops generalizing t' with
  | nil => exact fun x hx => nomatch hx
  | cons req pops ih =>
    have hrest : ∀ r ∈ pops, MayBeRequested t p r :=
      fun r hr => hpops r (mem_cons_of_mem req hr)
    have helse : Gives (fun x => ∀ t₁ ∈ x, Elsewhere p t' t₁)
        (t'.takeRequest p req) := Elsewhere.takeRequest (fun _ _ => trivial) req
    intro x hx
    unfold mustRequestCalls at hx
    split_ifs at hx with hlimit
    · cases hx
    · cases htake : t'.takeRequest p req with
      | error e =>
        rw [htake] at hx
        cases hx
      | ok taken =>
        rw [htake] at hx helse
        cases taken with
        | none => exact ih hu hrest x hx
        | some t₁ =>
          have he : Elsewhere p t' t₁ := helse t₁ rfl
          have hlegal : LegalRequest t₁ p req := by
            refine ⟨(hpops req mem_cons_self).underway (hu.elsewhere he), ?_⟩
            rw [he.requests, he.nominalMaxRequests]
            omega
          rcases mem_cons.mp hx with rfl | hx
          · exact hlegal
          · rw [hlegal.mustRequest] at hx
            split_ifs at hx
            · exact ih (hu.elsewhere he) hrest x hx
            · cases hmore : ((t₁.addRequest p req).sendRequest p) with
              | mk t₂ more =>
                rw [hmore] at hx
                have hu₂ := (hu.elsewhere he).request req
                rw [hmore] at hu₂
                cases more with
                | true => exact ih hu₂ hrest x hx
                | false => cases hx

/-- An update in which every call of `mustRequest` succeeds can only fail for what is taken from
other peers. -/
theorem applyRequests_of_calls (pops : List Nat)
    (h : ∀ x ∈ mustRequestCalls p pops t, ∃ y, x.1.mustRequest p x.2 = .ok y) :
    Ends (fun e => e.group = .request) (fun _ => True) (applyRequests p pops t) := by
  induction pops generalizing t with
  | nil => trivial
  | cons req pops ih =>
    have helse : Ends (fun e => e.group = .request) (fun x => ∀ t₁ ∈ x, Elsewhere p t t₁)
        (t.takeRequest p req) := Elsewhere.takeRequest (fun _ he => he) req
    unfold mustRequestCalls at h
    unfold applyRequests
    split_ifs with hlimit
    · trivial
    · rw [if_neg hlimit] at h
      cases htake : t.takeRequest p req with
      | error e =>
        rw [htake] at helse
        exact helse
      | ok taken =>
        rw [htake] at h
        cases taken with
        | none => exact ih h
        | some t₁ =>
          obtain ⟨⟨t₂, more⟩, hmust⟩ := h _ mem_cons_self
          have hrest := fun x hx => h x (mem_cons_of_mem _ hx)
          rw [hmust] at hrest
          refine Ends.bind (R := (· = (t₂, more))) (by rw [hmust]; rfl) fun y hy => ?_
          subst hy
          cases more with
          | true => exact ih hrest
          | false => trivial

theorem applyRequests_legal (pops : List Nat) (hu : Underway p t t')
    (hpops : ∀ r ∈ pops, MayBeRequested t p r) :
    Ends (fun e => e.group = .request) (fun _ => True) (applyRequests p pops t') := by
  exact applyRequests_of_calls pops fun x hx =>
    ⟨_, (mustRequestCalls_legal pops hu hpops x hx).mustRequest⟩

/-! ## Runs -/

/-- The torrent's info is regular. -/
def HasRegular (cfg : Config) (info : Option Info) : Prop :=
  ∀ i ∈ info, i.Regular cfg.chunkSize

/-- The torrent has an info without piece length. -/
def HasEmpty (info : Option Info) : Prop := ∃ i ∈ info, i.pieceLength = 0

theorem hasRegular_keeps : Keeps (fun _ => True) BringsRegular fun _ _ t =>
    HasRegular t.cfg t.info :=
  (aboutInfo fun _ _ hC _ hi => some.inj hi ▸ hC _ rfl).aboutPeers.keeps

theorem hasEmpty_keeps : Keeps (fun _ => True) (fun _ _ => True) fun _ _ t => HasEmpty t.info :=
  (aboutInfo (Q := fun _ info => HasEmpty info) fun {t _} hempty hinfo _ => by
    obtain ⟨i, hi, -⟩ := hempty
    rw [hinfo] at hi
    cases hi).aboutPeers.keeps

/-- What is known of a run whose infos are regular. Without piece length the pending pieces can be
stale, but then there are no chunks. -/
structure Choosing (t : Torrent) : Prop where
  ground : Ground none t
  regular : HasRegular t.cfg t.info
  wanted : HasEmpty t.info ∨ Wanted ∅ t

theorem Choosing.sound (h : Choosing t) : Sound t := by
  refine fun hopen info hinfo => ⟨h.regular info hinfo, fun hlength i hi hpending => ?_⟩
  have hwanted : Wanted ∅ t := h.wanted.resolve_left fun ⟨info', hinfo', hzero⟩ =>
    hlength (some.inj (hinfo.symm.trans hinfo') ▸ hzero)
  have hlt : i < t.numPieces := by simpa [numPieces, hinfo] using hi
  exact ((hwanted hopen).2.2 i hlt (Set.notMem_empty i)).mp hpending

theorem Choosing.step (h : Choosing t) {e : Event} (hC : BringsRegular t e) :
    Gives Choosing (t.step e) := by
  have hground := ground_keeps.step h.ground h.ground (C := fun _ _ => True) (e := e) trivial
  have hregular := hasRegular_keeps.step h.ground h.regular hC
  have hwanted : Gives (fun t' => HasEmpty t'.info ∨ Wanted ∅ t') (t.step e) := by
    by_cases hempty : HasEmpty t.info
    · exact (hasEmpty_keeps.step h.ground hempty (e := e) trivial).imp fun _ => .inl
    · have hkeep : KeepsPending t e := by
        unfold KeepsPending
        split
        · exact fun info hinfo hzero => hempty ⟨info, hinfo, hzero⟩
        · trivial
      exact (wanted_keeps.step h.ground (h.wanted.resolve_left hempty) hkeep).imp fun _ => .inr
  exact ((hground.and hregular).and hwanted).imp fun _ h' => ⟨h'.1.1, h'.1.2, h'.2⟩

theorem choosing_init (cfg : Config) (storage : Storage) : Choosing (.init cfg storage) where
  ground := ground_init cfg storage
  regular _ hi := nomatch hi
  wanted := .inr (wanted_init cfg storage)

/-- All panics but those of `shouldRequest`, `request` and `mustRequest`. -/
def RequestsLegal (e : Panic) : Prop := (∀ fault, e ≠ .shouldRequest fault) ∧ e ≠ .tooManyRequests

theorem requestsLegal_of_group {e : Panic} (h : e.group ≠ .choice) : RequestsLegal e :=
  ⟨fun _ heq => h (heq ▸ rfl), fun heq => h (heq ▸ rfl)⟩

theorem update_legal (hsound : Sound t) (hactive : p ∈ t.iterPeers) (input : StrategyInput)
    (pops : List Nat) :
    Ends RequestsLegal (fun _ => True) (t.maybeUpdateActualRequestState p input pops) := by
  unfold maybeUpdateActualRequestState
  split_ifs with hclosed
  · trivial
  · trivial
  · cases hdesired : t.getDesiredRequestState p input with
    | error e =>
      have hends : Ends RequestsLegal (fun _ => True) (t.getDesiredRequestState p input) :=
        getDesiredRequestState_ends (requestsLegal_of_group nofun) p input
      rw [hdesired] at hends
      exact hends
    | ok desired =>
      refine Ends.require (fun _ => ?_) fun _ => requestsLegal_of_group nofun
      refine Ends.require (fun _ => ?_) fun _ => ⟨nofun, nofun⟩
      refine ((applyRequests_legal (t.popOrder p desired.requests pops) (.setInterested p _)
        fun r hr => desired_legal hsound hactive (by simpa using hclosed) hdesired
          (mem_popOrder hr)).mono (fun e he => requestsLegal_of_group (by simp [he]))
        fun _ h => h).bind fun _ _ => ?_
      exact Ends.require (fun _ => trivial) fun _ => requestsLegal_of_group nofun

theorem requestsLegal_requestsOnly : RequestsOnly RequestsLegal fun _ => True where
  request _ he := requestsLegal_of_group (by simp [he])
  withdrawn _ _ := trivial
  cancelled _ _ _ := trivial
  acknowledged _ := trivial
  unexpected _ := trivial
  availPanic _ he := requestsLegal_of_group (by rcases he with he | he | he <;> simp [he])
  storePanic _ he := requestsLegal_of_group (by simp [he])
  owner _ := trivial

theorem requestsLegal_aboutRequests :
    AboutRequests RequestsLegal (fun t _ => Sound t) fun _ => True where
  toRequestsOnly := requestsLegal_requestsOnly
  setInfo _ _ _ := trivial
  fill _ hp hsound := update_legal hsound (mem_append_left _ hp) _ _
  updateWebseed _ hp _ hsound := update_legal hsound (mem_append_right _ hp) _ _
  webseedRequest {t p} _ _ _ := by
    unfold webseedRequest
    split
    · trivial
    · split_ifs
      · exact ⟨nofun, nofun⟩
      · trivial
  webseedResult _ _ _ := requestsLegal_requestsOnly.toUnbooks.requestResultHandler trivial
    fun _ _ _ => requestsLegal_requestsOnly.receiveChunk trivial _ _ _ _ _
  webseedDone _ _ := trivial

/-- Each call of `mustRequest` in an update of an active, open peer is for a legal request and
succeeds. -/
def RequestsLegally (t : Torrent) : Prop :=
  ∀ p ∈ t.iterPeers, t.avail.closed p = false → ∀ input desired,
    t.getDesiredRequestState p input = .ok desired → ∀ pops,
    ∀ x ∈ mustRequestCalls p (t.popOrder p desired.requests pops)
      (t.setInterested p desired.interested).1,
      LegalRequest x.1 p x.2 ∧ ∃ y, x.1.mustRequest p x.2 = .ok y

/-- **Only legal requests are made**, in every run whose infos are regular, and the panics of
`shouldRequest`, `request` and `mustRequest` are not reached. -/
theorem only_legal_requests (cfg : Config) (storage : Storage) (events : List Event)
    (hC : Meets step BringsRegular (init cfg storage) events) :
    Ends (fun e => (∀ fault, e ≠ .shouldRequest fault) ∧ e ≠ .tooManyRequests)
      RequestsLegally (run step (init cfg storage) events) := by
  have hinit := choosing_init cfg storage
  have hstep : ∀ t e, Choosing t → BringsRegular t e → Gives Choosing (t.step e) :=
    fun _ _ h hC => h.step hC
  have hsound : Meets step (fun t _ => Sound t) (init cfg storage) events :=
    hC.imp_of_keeps hstep (fun _ _ h _ => h.sound) hinit
  have hlegal := requestsLegal_aboutRequests.aboutPeers.keeps.run trivial hsound
  refine (hlegal.and (hC.ends hstep hinit)).imp fun t ⟨_, hchoosing⟩ p hp hopen input desired
    hdesired pops x hx => ?_
  have hx := mustRequestCalls_legal _ (.setInterested p _)
    (fun r hr => desired_legal hchoosing.sound hp hopen hdesired (mem_popOrder hr)) x hx
  exact ⟨hx, _, hx.mustRequest⟩

/-- **A wrapped request index.** The only chunk of the last piece has the index of the first chunk
of the first piece, and is requested as such from a peer that has the last piece only. -/
theorem wrapped_request_panics :
    FailsWith (.shouldRequest .peerLacksPiece)
      (run step (init byteConfig emptyStorage)
        [.setInfo wrappingInfo, .addConn 1 true false none, pieceMessage .have_ 2,
          .downloadPieces 2 3, pieceMessage .unchoke 0, .fill 1 {} [] 0 []]) := by
  decide

/-- A connection with everything may be asked for the one piece, of two chunks. -/
def mayAsk : List Event :=
  [.setInfo smallInfo, .addConn 1 true false none, pieceMessage .haveAll 0,
    .downloadPieces 0 1, pieceMessage .unchoke 0]

theorem mayAsk_legal :
    Reaches (fun t => 1 ∈ t.iterPeers ∧ t.avail.closed 1 = false ∧
        Reaches (fun desired => (mustRequestCalls 1 (t.popOrder 1 desired.requests [])
          (t.setInterested 1 desired.interested).1).map Prod.snd = [0])
          (t.getDesiredRequestState 1 {}))
      (run step (init smallConfig emptyStorage) mayAsk) ∧
    Ends (fun e => (∀ fault, e ≠ .shouldRequest fault) ∧ e ≠ .tooManyRequests)
      RequestsLegally (run step (init smallConfig emptyStorage) mayAsk) :=
  ⟨by decide, only_legal_requests smallConfig emptyStorage mayAsk (by decide)⟩

end ReliableBT
