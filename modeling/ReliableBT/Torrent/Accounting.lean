import ReliableBT.Torrent.Availability

/-!
# Availability over whole runs (`torrent.go`, `onSetInfo`)

When the info becomes known, `onSetInfo` goes through the pieces and sets `relativeAvailability` of
each to what `selectivePieceAvailabilityFromPeers` counts; then it tells the peers, and connections
forget the pieces that do not exist. A piece that storage has already is completed on the way, and
completing the last one drops the connections that are of no more use, which gives back the
availability of their pieces. That goes well because all pieces have been counted by then
(`Frozen`).

What is counted are all peers of the torrent that `peerHasPiece`. This is not who is recorded to
have the piece: a closed connection that has not been deleted is counted, and so is a connection for
every piece if it has announced as many pieces as there are, whichever they were. `InfoFits` says
that it makes no difference.

* `availability_accounted`: the accounts are right in every run in which the info fits and no peer
  takes back a `HaveAll` by a `HaveNone`.
* `availability_miscounted`: runs in which they go wrong.
-/

open List Function Nat

namespace ReliableBT

open Torrent

variable {t t' t₁ : Torrent} {info : Info} {late : Nat → Prop} {i k p : Nat}

/-- The peers that `onSetInfo` counts are those that are open and recorded to have the piece, and
webseeds are open. -/
def InfoFits (t : Torrent) (info : Info) : Prop :=
  (∀ p ∈ t.iterPeers, p ∉ t.avail.connsWithAllPieces → ∀ i < info.numPieces,
    { t with info := some info }.peerHasPiece p i = true →
      t.avail.closed p = false ∧ i ∈ t.avail.peerPieces p) ∧
  ∀ p ∈ t.avail.webSeeds, t.avail.closed p = false

instance (t : Torrent) (info : Info) : Decidable (InfoFits t info) :=
  inferInstanceAs (Decidable (_ ∧ _))

/-- The connection that sends `HaveNone`. -/
def Event.hasNone : Event → Option Nat
  | .message p msg _ _ => if msg.type = .haveNone then some p else none
  | _ => none

/-- The info fits when it becomes known, and a connection that has sent `HaveAll` does not send
`HaveNone`. -/
def KeepsAccounts (t : Torrent) (e : Event) : Prop :=
  (∀ info ∈ e.brings, t.info = none → InfoFits t info) ∧
  ∀ p ∈ e.hasNone, t.avail.peerSentHaveAll p = false

instance (t : Torrent) (e : Event) : Decidable (KeepsAccounts t e) :=
  inferInstanceAs (Decidable (_ ∧ _))

/-! ## Counting the pieces -/

/-- In the middle of `onSetInfo`: the pieces below `k` have been counted and the others have not, no
peer has gone, and no piece from `k` on is complete or queued. -/
def Frozen (t₁ : Torrent) (k : Nat) (t : Torrent) : Prop :=
  t.avail = { t₁.avail with relative := t.avail.relative } ∧ t.info = t₁.info ∧ t.kind = t₁.kind ∧
    (∀ i < k, t.avail.relative i = t₁.avail.sharers i) ∧
    (∀ i, k ≤ i → t.avail.relative i = 0) ∧ (∀ i ∈ t.comp.completed, i < k) ∧
    ∀ i ∈ t.hash.queued, i < k

theorem frozen_reqsFree (t₁ : Torrent) (k : Nat) : ReqsFree AccountsRight (Frozen t₁ k) where
  panic := (accounts_reqsFree NoneLate).panic

theorem Frozen.setCompletion (h : Frozen t₁ k t) (hi : i < k) (c : Completion) :
    Frozen t₁ k (t.setCompletion i c) := by
  obtain ⟨havail, hinfo, hkind, hcount, hzero, hdone, hqueued⟩ := h
  refine ⟨havail, hinfo, hkind, hcount, hzero, fun j hj => ?_, hqueued⟩
  change j ∈ (if c.complete then _ else _) at hj
  split_ifs at hj
  · rcases Bitmap.mem_add.mp hj with rfl | hj
    · exact hi
    · exact hdone j hj
  · exact hdone j (Bitmap.mem_remove.mp hj).1

theorem Frozen.not_haveAllPieces (h : Frozen t₁ k t) (hk : k < t₁.numPieces) :
    t.haveAllPieces = false := by
  obtain ⟨-, hinfo, -, -, -, hdone, -⟩ := h
  have hnum : t.numPieces = t₁.numPieces := by
    unfold numPieces
    rw [hinfo]
  have hcard := Bitmap.card_le_of_below hdone
  unfold haveAllPieces
  rw [hnum, Bool.and_eq_false_iff]
  right
  simp only [decide_eq_false_iff_not]
  omega

theorem frozen_plain (hk : k < t₁.numPieces) : Plain AccountsRight (· < k) (Frozen t₁ k) where
  toAside := (frozen_reqsFree t₁ k).toAside
  index e he := by simp [AccountsRight, he]
  order {t i} _ h := by
    unfold updatePieceRequestOrder
    split_ifs
    · exact h
    · exact PanicGroup.noConfusion
    · exact PanicGroup.noConfusion
    · exact h
  pendAll _ _ h := h
  complete hi _ h c := h.setCompletion hi c
  cancelRequest h r := (frozen_reqsFree t₁ k).unbooks.cancelRequest h r
  drop h _ hall := absurd ((h.not_haveAllPieces hk).symm.trans hall) Bool.false_ne_true
  queued h hi := h.2.2.2.2.2.2 _ hi
  flags h _ _ _ _ hq := by
    obtain ⟨havail, hinfo, hkind, hcount, hzero, hdone, hqueued⟩ := h
    exact ⟨havail, hinfo, hkind, hcount, hzero, hdone, fun i hi => (hq i hi).elim (hqueued i) id⟩

theorem selective_eq_sharers (hfit : ∀ p ∈ t.iterPeers, p ∉ t.avail.connsWithAllPieces →
      t.peerHasPiece p i = true → t.avail.closed p = false ∧ i ∈ t.avail.peerPieces p) :
    t.selectivePieceAvailabilityFromPeers i = t.avail.sharers i := by
  unfold selectivePieceAvailabilityFromPeers Avail.sharers
  refine countP_congr fun p hp => ?_
  unfold Avail.shares
  simp only [Bool.and_eq_true, decide_eq_true_eq, Bool.not_eq_true']
  constructor
  · rintro ⟨hnot, hhas⟩
    obtain ⟨hopen, hmem⟩ := hfit p hp hnot hhas
    exact ⟨⟨hopen, hnot⟩, hmem⟩
  · rintro ⟨⟨-, hnot⟩, hmem⟩
    refine ⟨hnot, ?_⟩
    unfold peerHasPiece
    split_ifs
    · rfl
    · exact decide_eq_true hmem

theorem Frozen.selective (h : Frozen t₁ k t) (i : Nat) :
    t.selectivePieceAvailabilityFromPeers i = t₁.selectivePieceAvailabilityFromPeers i := by
  obtain ⟨havail, hinfo, hkind, -⟩ := h
  unfold selectivePieceAvailabilityFromPeers iterPeers peerHasPiece peerHasAllPieces haveInfo
    numPieces
  rw [havail, hinfo, hkind]

theorem Frozen.next (h : Frozen t₁ k t)
    (hsel : t₁.selectivePieceAvailabilityFromPeers k = t₁.avail.sharers k) :
    Frozen t₁ (k + 1) { t with
      avail.relative :=
        update t.avail.relative k (t.selectivePieceAvailabilityFromPeers k) } := by
  rw [h.selective k, hsel]
  obtain ⟨havail, hinfo, hkind, hcount, hzero, hdone, hqueued⟩ := h
  have hsame : ∀ relative, ({ t.avail with relative := relative } : Avail) =
      { t₁.avail with relative := relative } := fun relative => by rw [havail]
  refine ⟨hsame _, hinfo, hkind, fun i hi => ?_, fun i hi => ?_, fun i hi => ?_, fun i hi => ?_⟩
  · dsimp only
    by_cases hik : i = k
    · rw [hik, update_self]
    · rw [update_of_ne hik]
      exact hcount i (by omega)
  · dsimp only
    rw [update_of_ne (by omega)]
    exact hzero i (by omega)
  · exact lt_succ_of_lt (hdone i hi)
  · exact lt_succ_of_lt (hqueued i hi)

theorem Frozen.accounts (h : Frozen t₁ t₁.numPieces t)
    (hready : ∀ relative, (∀ i < t₁.numPieces, relative i = t₁.avail.sharers i) →
      AccountsOf t₁.isConn t₁.numPieces t₁.haveInfo late { t₁.avail with relative := relative }) :
    Accounts late t := by
  obtain ⟨havail, hinfo, hkind, hcount, -⟩ := h
  have haccounts := hready t.avail.relative hcount
  rw [← havail] at haccounts
  unfold isConn numPieces haveInfo at haccounts
  rw [← hinfo, ← hkind] at haccounts
  exact haccounts

theorem onSetInfoPiece_ends {I : Torrent → Prop} {P : Nat → Prop}
    (hu : Plain AccountsRight P I) (hP : P k)
    (horder : ∀ {t : Torrent}, I t → ∀ order, I { t with order := order })
    (hzero : t.avail.relative k = 0)
    (ht : I { t with
      avail.relative :=
        update t.avail.relative k (t.selectivePieceAvailabilityFromPeers k) }) :
    Ends AccountsRight I (t.onSetInfoPiece k) := by
  refine hu.toQueue.onSetInfoPiece (S := ∅) (d := none) hP (fun hno => absurd hzero hno) fun _ => ?_
  unfold addRequestOrderPiece
  split_ifs
  · exact ht
  · exact nofun
  · exact horder ht _

theorem onSetInfo_pieces (hstart : Frozen t₁ 0 t₁)
    (hsel : ∀ i < t₁.numPieces, t₁.selectivePieceAvailabilityFromPeers i = t₁.avail.sharers i)
    (hready : ∀ relative, (∀ i < t₁.numPieces, relative i = t₁.avail.sharers i) →
      AccountsOf t₁.isConn t₁.numPieces t₁.haveInfo late { t₁.avail with relative := relative }) :
    Ends AccountsRight (Accounts late) ((range t₁.numPieces).foldlM onSetInfoPiece t₁) := by
  refine (Ends.foldlM_range (I := fun k t =>
    (k < t₁.numPieces → Frozen t₁ k t) ∧ (t₁.numPieces ≤ k → Accounts late t))
    ⟨fun _ => hstart, fun hle => ?_⟩ fun k hk t ht => ?_).imp fun t ht => ht.2 (le_refl _)
  · have hnone : t₁.numPieces = 0 := eq_zero_of_le_zero hle
    exact Frozen.accounts (hnone ▸ hstart) hready
  · have hfrozen := ht.1 hk
    have hzero : t.avail.relative k = 0 := hfrozen.2.2.2.2.1 k (le_refl k)
    have hnext := hfrozen.next (hsel k hk)
    by_cases hlast : k + 1 < t₁.numPieces
    · have hstep := onSetInfoPiece_ends (frozen_plain hlast) (lt_succ_self k)
        (fun h _ => h) hzero hnext
      exact hstep.imp fun t' ht' => ⟨fun _ => ht', fun hle => absurd hlast (not_lt.mpr hle)⟩
    · -- the last piece: from here on connections may be dropped
      have hall : k + 1 = t₁.numPieces := by omega
      rw [hall] at hnext
      have hstep := onSetInfoPiece_ends (accounts_plain late) trivial (fun h _ => h) hzero
        (hnext.accounts hready)
      exact hstep.imp fun t' ht' => ⟨fun hlt => absurd hlt hlast, fun _ => ht'⟩

/-- The torrent with its info, before `onSetInfo`. -/
def Torrent.informed (t : Torrent) (info : Info) : Torrent :=
  { t with
    info := some info
    avail.relative := fun _ => 0
    prio.file := fun _ => .none
    prio.piece := fun _ => .none }

/-! ## Telling the peers -/

section Peers

variable {isConn : Nat → Bool} {numPieces : Nat} {l : List Nat} {a : Avail}

theorem AccountsOf.trim (h : AccountsOf isConn numPieces true (· ∈ p :: l) a)
    (hconn : isConn p = true) :
    AccountsOf isConn numPieces true (· ∈ l) { a with
      peerPieces := update a.peerPieces p ((a.peerPieces p).below numPieces) } where
  toRosterOf := h.toRosterOf
  gone := h.gone
  allNodup := h.allNodup
  all := h.all
  haveAll q hq hclosed hsent := by
    obtain ⟨hall, hnone⟩ := h.haveAll q hq hclosed hsent
    refine ⟨hall, fun i hi => ?_⟩
    dsimp only at hi
    by_cases hqp : q = p
    · subst hqp
      rw [update_self] at hi
      exact hnone i (Bitmap.mem_below.mp hi).1
    · rw [update_of_ne hqp] at hi
      exact hnone i hi
  range _ q hq hlate i hi := by
    by_cases hqp : q = p
    · subst hqp
      dsimp only at hi
      rw [update_self] at hi
      exact (Bitmap.mem_below.mp hi).2
    · dsimp only at hi
      rw [update_of_ne hqp] at hi
      refine h.range rfl q hq (fun hmem => ?_) i hi
      rcases mem_cons.mp hmem with heq | hmem
      · exact hqp heq
      · exact hlate hmem
  early q hq hlate := by
    have hqp : q ≠ p := by
      rintro rfl
      rw [h.web q hq] at hconn
      cases hconn
    dsimp only
    rw [update_of_ne hqp]
    exact h.early q hq (hlate.imp_right (mem_cons_of_mem p))
  awake q hq hlate := h.awake q hq (mem_cons_of_mem p hlate)
  counted i hi := by
    refine (h.counted i hi).trans (countP_congr fun q _ => ?_)
    have hsame : Avail.shares { a with
        peerPieces := update a.peerPieces p ((a.peerPieces p).below numPieces) } i q =
        a.shares i q := by
      refine shares_congr rfl Iff.rfl ?_
      by_cases hqp : q = p
      · subst hqp
        dsimp only
        rw [update_self, Bitmap.mem_below]
        exact and_iff_left hi
      · dsimp only
        rw [update_of_ne hqp]
    rw [hsame]

theorem AccountsOf.stock (h : AccountsOf isConn numPieces true (· ∈ p :: l) a) (hpl : p ∉ l)
    (hp : p ∈ a.webSeeds) {pieces : Bitmap} (hrange : ∀ i ∈ pieces, i < numPieces)
    {relative : Nat → Nat}
    (hcount : ∀ i < numPieces, relative i = a.sharers i + (decide (i ∈ pieces)).toNat) :
    AccountsOf isConn numPieces true (· ∈ l) { a with
      peerPieces := update a.peerPieces p pieces
      relative := relative } where
  toRosterOf := h.toRosterOf
  gone := h.gone
  allNodup := h.allNodup
  all := h.all
  haveAll q hq hclosed hsent := by
    have hqp : q ≠ p := by
      rintro rfl
      exact h.not_web_of_conn hq hp
    obtain ⟨hall, hnone⟩ := h.haveAll q hq hclosed hsent
    dsimp only
    rw [update_of_ne hqp]
    exact ⟨hall, hnone⟩
  range _ q hq hlate i hi := by
    dsimp only at hi
    by_cases hqp : q = p
    · subst hqp
      rw [update_self] at hi
      exact hrange i hi
    · rw [update_of_ne hqp] at hi
      refine h.range rfl q hq (fun hmem => ?_) i hi
      rcases mem_cons.mp hmem with heq | hmem
      · exact hqp heq
      · exact hlate hmem
  early q hq hlate := by
    have hmem : q ∈ l := hlate.resolve_left nofun
    have hqp : q ≠ p := fun heq => hpl (heq ▸ hmem)
    dsimp only
    rw [update_of_ne hqp]
    exact h.early q hq (.inr (mem_cons_of_mem p hmem))
  awake q hq hlate := h.awake q hq (mem_cons_of_mem p hlate)
  counted i hi := by
    have hnot : p ∉ a.connsWithAllPieces := fun hmem =>
      h.not_web_of_conn (h.all p hmem).1 hp
    have hopen : a.closed p = false := h.awake p hp mem_cons_self
    have hnone := h.early p hp (.inr mem_cons_self) i
    have hbefore : a.shares i p = false := by simp [Avail.shares, hnone]
    have hafter : Avail.shares { a with
        peerPieces := update a.peerPieces p pieces, relative := relative } i p =
        decide (i ∈ pieces) := by
      simp [Avail.shares, hopen, hnot]
    have hchange := sharers_change a { a with
        peerPieces := update a.peerPieces p pieces, relative := relative } i h.nodup
      (mem_append_right _ hp) rfl fun q hq =>
        shares_congr rfl Iff.rfl (by dsimp only; rw [update_of_ne hq])
    rw [hbefore, hafter] at hchange
    exact (hcount i hi).trans hchange.symm

end Peers

namespace Accounts

theorem mono {late' : Nat → Prop} (h : Accounts late t)
    (hrange : ∀ p ∈ t.iterPeers, ¬ late' p → ¬ late p)
    (hlate : ∀ p ∈ t.avail.webSeeds, late' p → late p) : Accounts late' t :=
  { h with
    range := fun hinfo q hq hnot => h.range hinfo q hq (hrange q hq hnot)
    early := fun q hq hor => h.early q hq (hor.imp_right (hlate q hq))
    awake := fun q hq hl => h.awake q hq (hlate q hq hl) }

theorem onSetInfoPeer {l : List Nat} (h : Accounts (· ∈ p :: l) t) (hpl : p ∉ l)
    (hinfo : t.haveInfo = true) (hp : p ∈ t.avail.peerIds)
    (hweb : t.isConn p = false → p ∈ t.avail.webSeeds) :
    Ends AccountsRight (Accounts (· ∈ l)) (t.onSetInfoPeer p) := by
  have hgot : Ends AccountsRight (Accounts (· ∈ l)) (t.onGotInfo p) := by
    unfold Accounts at h
    rw [hinfo] at h
    unfold onGotInfo
    split
    · rename_i hkind
      have hconn : t.isConn p = true := by simp [isConn, hkind]
      have htrim : Accounts (· ∈ l) { t with
          avail.peerPieces :=
            update t.avail.peerPieces p ((t.avail.peerPieces p).below t.numPieces) } := by
        unfold Accounts
        have htrimmed := h.trim hconn
        rw [← hinfo] at htrimmed
        exact htrimmed
      exact htrim.maybeDrop hp
    · rename_i conforming hkind
      have hconn : t.isConn p = false := by simp [isConn, hkind]
      refine (webseedGotInfo_recounted h.counted p conforming).imp ?_
      rintro _ ⟨relative, order, rfl, hcount⟩
      have hstock := h.stock hpl (hweb hconn) (fun i hi => t.webseedPieces_lt hi) hcount
      rw [← hinfo] at hstock
      exact hstock
  refine hgot.bind fun t₁ ht₁ => (accounts_reqsFree _).updateRequests ht₁ p (.inl ?_)
  exact UpdateReason.noConfusion

theorem onSetInfoPeer_sameKinds (t : Torrent) (p : Nat) :
    Gives (SameKinds t) (t.onSetInfoPeer p) := by
  have h := sameKinds_peersFree t
  refine h.safe.onSetInfoPeer (fun ht' q => ?_) (.refl t) p
  exact ends_maybeDrop q ht' fun _ _ => h.safe.dropConnection ht' q

theorem onSetInfo_peers (h : Accounts (fun _ => True) t) (hinfo : t.haveInfo = true) :
    Ends AccountsRight (Accounts NoneLate) (t.iterPeers.foldlM Torrent.onSetInfoPeer t) := by
  refine (Ends.foldlM_list (I := fun l t' => Accounts (· ∈ l) t' ∧ l.Nodup ∧ SameKinds t t' ∧
    ∀ q ∈ l, q ∈ t.avail.peerIds ∧ (t.isConn q = false → q ∈ t.avail.webSeeds))
    ⟨?_, h.nodup, .refl t, fun q hq => ⟨h.known q hq, fun hconn => ?_⟩⟩ ?_).imp ?_
  · exact h.mono (fun q hq hnot => absurd hq hnot) fun _ _ _ => trivial
  · rcases mem_append.mp hq with hq | hq
    · rw [h.conn q hq] at hconn
      cases hconn
    · exact hq
  · rintro p l t' ⟨ht', hnodup, hsame, hl⟩
    obtain ⟨hpl, hnodup⟩ := nodup_cons.mp hnodup
    obtain ⟨hknown, hweb⟩ := hl p mem_cons_self
    have hinfo' : t'.haveInfo = true := by
      unfold haveInfo
      rw [hsame.2.2.2]
      exact hinfo
    have hstep := ht'.onSetInfoPeer hpl hinfo' (hsame.2.1 ▸ hknown) fun hconn => by
      rw [hsame.2.2.1]
      exact hweb ((hsame.isConn p).symm.trans hconn)
    refine (hstep.and (onSetInfoPeer_sameKinds t' p)).imp fun t₂ ⟨ht₂, hsame₂⟩ => ?_
    refine ⟨ht₂, hnodup, ?_, fun q hq => hl q (mem_cons_of_mem p hq)⟩
    exact ⟨hsame₂.1.trans hsame.1, hsame₂.2.1.trans hsame.2.1, hsame₂.2.2.1.trans hsame.2.2.1,
      hsame₂.2.2.2.trans hsame.2.2.2⟩
  · rintro t' ⟨ht', -⟩
    exact ht'.mono (fun _ _ _ => not_mem_nil) fun _ _ hlate => hlate.elim

/-! ## The info -/

theorem ready (h : Accounts NoneLate t) (hinfo : t.info = none)
    (hopen : ∀ p ∈ t.avail.webSeeds, t.avail.closed p = false) (numPieces : Nat)
    {relative : Nat → Nat} (hcount : ∀ i < numPieces, relative i = t.avail.sharers i) :
    AccountsOf t.isConn numPieces true (fun _ => True) { t.avail with relative := relative } :=
  { h with
    range := fun _ _ _ hlate => absurd trivial hlate
    early := fun q hq _ => h.early q hq (.inl (by simp [haveInfo, hinfo]))
    awake := fun q hq _ => hopen q hq
    counted := hcount }

theorem setInfo_ends (t : Torrent) (info : Info) :
    Ends AccountsRight (fun t' => t' = t.informed info) (t.setInfo info) := by
  unfold setInfo
  split_ifs
  · exact nofun
  · rfl

theorem informed_pieces (h : Accounts NoneLate t) (hinfo : t.info = none)
    (hg : Ground none t) (hfit : InfoFits t info) :
    Ends AccountsRight (Accounts fun _ => True)
      ((range (t.informed info).numPieces).foldlM onSetInfoPiece (t.informed info)) := by
  refine onSetInfo_pieces ?_ (fun i hi => ?_) fun relative hcount => ?_
  · exact ⟨rfl, rfl, rfl, fun i hi => absurd hi (not_lt_zero i), fun _ _ => rfl,
      fun i hi => absurd hi ((hg.no_pieces hinfo).1 i),
      fun i hi => absurd hi ((hg.no_pieces hinfo).2 i)⟩
  · exact selective_eq_sharers fun p hp hnot hhas => hfit.1 p hp hnot i hi hhas
  · exact h.ready hinfo hfit.2 info.numPieces hcount

theorem gotInfo (h : Accounts NoneLate t) (hinfo : t.info = none)
    (hg : Ground none t) (hfit : InfoFits t info) :
    Ends AccountsRight (Accounts NoneLate) (t.gotInfo info) := by
  -- nothing up to the peers takes the info away again
  have hkept := sameKinds_plain (t.informed info)
  unfold Torrent.gotInfo
  split_ifs
  · exact h
  · refine (setInfo_ends t info).bind ?_
    rintro _ rfl
    refine ((h.informed_pieces hinfo hg hfit).and (onSetInfo_sameKinds _)).bind
      fun t₂ ⟨ht₂, hsame₂⟩ => ?_
    have ht₃ : Accounts (fun _ => True) { t₂ with reqs.owner := fun _ => none } := ht₂
    have hsame₃ : SameKinds (t.informed info) { t₂ with reqs.owner := fun _ => none } := hsame₂
    refine (((accounts_plain _).tryCreateMorePieceHashers ht₃).and
      (hkept.tryCreateMorePieceHashers hsame₃)).bind fun t₄ ⟨ht₄, hsame₄⟩ => ?_
    refine ht₄.onSetInfo_peers ?_
    unfold haveInfo
    rw [hsame₄.2.2.2]
    rfl

end Accounts

/-! ## Whole runs -/

theorem accounts_dataFree : DataFree AccountsRight (Accounts NoneLate) where
  toPlain := accounts_plain NoneLate
  storePanic e he := by simp [AccountsRight, he]

theorem accounts_aboutPeers : AboutPeers AccountsRight KeepsAccounts (Accounts NoneLate) where
  toDataFree := accounts_dataFree
  gotInfo h hg hinfo hC := h.gotInfo hinfo hg (hC.1 _ rfl hinfo)
  addPeerConn h hp := h.peerConnAdded hp _ _ _
  addWebSeed h hp := h.addWebSeed hp _ _
  close h hp := (h.close hp fun hlate => hlate.elim).imp fun _ ht' => ht'.1
  dropConnection h hp hconn := h.dropConnection hp hconn
  deleteAllRequests h _ := (accounts_reqsFree NoneLate).unbooks.deleteAllRequests h _ _
  peerSentHave h hp hopen := h.peerSentHave hp hopen _
  peerSentBitfield h hp hopen := h.peerSentBitfield hp hopen _
  onPeerHasAllPieces h hp hopen := h.onPeerHasAllPieces hp hopen
  peerSentHaveNone h hp hopen htype hC :=
    h.peerSentHaveNone hp hopen (hC.2 _ (by simp [Event.hasNone, htype]))
  receiveChunk h _ :=
    accounts_dataFree.writesFree.receiveChunk (accounts_reqsFree NoneLate).unbooks h _ _ _ _ _
  remoteRejectedRequest h _ := (accounts_reqsFree NoneLate).unbooks.remoteRejectedRequest h _ _
  fill h _ _ := (accounts_reqsFree NoneLate).maybeUpdateActualRequestState
    (fun e he => by simp [AccountsRight, he]) h _ _ _
  updateWebseed h _ _ _ := (accounts_reqsFree NoneLate).maybeUpdateActualRequestState
    (fun e he => by simp [AccountsRight, he]) h _ _ _
  webseedRequest h _ _ := (accounts_reqsFree NoneLate).webseedRequest h _
  webseedResult h _ _ :=
    accounts_dataFree.writesFree.requestResultHandler (accounts_reqsFree NoneLate) h _ _ _ _
  webseedDone h _ := h
  reorder h hperm := h.reorder hperm
  closeTorrent h := h.closeTorrent

theorem accounts_init (cfg : Config) (storage : Storage) :
    Accounts NoneLate (.init cfg storage) where
  conn _ hp := nomatch hp
  web _ hp := nomatch hp
  known _ hp := nomatch hp
  nodup := nodup_nil
  gone _ hp := nomatch hp
  allNodup := nodup_nil
  all _ hp := nomatch hp
  haveAll _ hp := nomatch hp
  range _ _ hp := nomatch hp
  early _ hp := nomatch hp
  awake _ hp := nomatch hp
  counted _ _ := rfl

/-- The panics about availability. -/
def availabilityPanics : List Panic :=
  [.decPieceAvailability, .connsWithAllPiecesLeft, .availabilityLeft, .availabilityBeforeInfo,
    .notInConnsWithAllPieces, .individualPeerPieces, .connNotClosed]

/-- The recorded availability of each piece is the number of open peers outside
`connsWithAllPieces` whose recorded pieces contain it, those pieces exist, and the members of
`connsWithAllPieces` are open connections that have sent `HaveAll`. -/
def AvailabilityCounted (t : Torrent) : Prop :=
  (∀ i < t.numPieces, t.avail.relative i = t.avail.sharers i) ∧
  (t.haveInfo = true → ∀ p ∈ t.iterPeers, ∀ i ∈ t.avail.peerPieces p, i < t.numPieces) ∧
  ∀ p ∈ t.avail.connsWithAllPieces,
    p ∈ t.avail.conns ∧ t.avail.closed p = false ∧ t.avail.peerSentHaveAll p = true

/-- **Availability is accounted for** in every run in which the info fits and no connection takes
back a `HaveAll` by a `HaveNone`. No panic about availability is reached. -/
theorem availability_accounted (cfg : Config) (storage : Storage) (events : List Event)
    (hC : Meets step KeepsAccounts (init cfg storage) events) :
    Ends (fun e => e ∉ availabilityPanics) AvailabilityCounted
      (run step (init cfg storage) events) := by
  refine (accounts_aboutPeers.keeps.run (accounts_init cfg storage) hC).mono (fun e he => ?_)
    fun t ⟨h, _⟩ => ⟨h.counted, fun hinfo p hp => h.range hinfo p hp id, h.all⟩
  intro hmem
  simp only [availabilityPanics, mem_cons, not_mem_nil, or_false] at hmem
  rcases hmem with rfl | rfl | rfl | rfl | rfl | rfl | rfl <;> exact he rfl

/-- **The accounts go wrong** otherwise. A connection announces a piece that does not exist before
the info is known, and closing the torrent panics; a closed connection is counted when the info
becomes known; a connection takes back its `HaveAll` by a `HaveNone` and stays in
`connsWithAllPieces`. -/
theorem availability_miscounted :
    FailsWith .availabilityLeft (run step (init smallConfig emptyStorage)
      [.addConn 1 true false none, pieceMessage .have_ 5, .setInfo smallInfo, .close]) ∧
    Reaches (fun t => t.avail.relative 0 = 1 ∧ t.avail.sharers 0 = 0)
      (run step (init smallConfig emptyStorage)
        [.addConn 1 true false none, pieceMessage .have_ 0, .closeConn 1, .setInfo smallInfo]) ∧
    Reaches (fun t => 1 ∈ t.avail.connsWithAllPieces ∧ t.avail.peerSentHaveAll 1 = false)
      (run step (init smallConfig emptyStorage)
        [.setInfo smallInfo, .addConn 1 true false none, pieceMessage .haveAll 0,
          pieceMessage .haveNone 0]) := by
  decide

/-- A connection announces a piece before the info is known, and closes after that. -/
def visit : List Event :=
  [.addConn 1 true false none, pieceMessage .have_ 0, .setInfo smallInfo, .closeConn 1, .close]

theorem visit_accounted :
    Meets step KeepsAccounts (init smallConfig emptyStorage) visit ∧
    Ends (fun e => e ∉ availabilityPanics) AvailabilityCounted
      (run step (init smallConfig emptyStorage) visit) :=
  ⟨by decide, availability_accounted smallConfig emptyStorage visit (by decide)⟩

end ReliableBT
