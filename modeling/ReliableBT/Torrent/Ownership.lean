import ReliableBT.Torrent.DataFree

/-!
# Request ownership (`peerconn.go`, `requesting.go`, `webseed-peer.go`)

A request is written down three times: in the torrent's `requestState`, in the peer's `Requests`,
and as an expected chunk in its `validReceiveChunks`; a cancelled request that will be acknowledged
stays in `Cancelled`. Making, stealing, cancelling, rejecting and satisfying requests, choking,
dropping and closing all keep the three in step, and so none of the panics that compare them can
happen. For webseeds this needs to be known of the requests that are running as well: their results
come back whatever has happened to them.

* `OwnershipOf`: the invariant. It has a parameter `B`, an upper bound on who has what requested: it
  says that a request is gone (`¬ B p r`), or that there are none at all before the info is known.
* `request_ownership`: it holds in every run, without any condition.
-/

open List Function Option

namespace ReliableBT

open Torrent

/-- A request index that stands for a chunk of the torrent. -/
def Torrent.ValidIndex (t : Torrent) (r : Nat) : Prop :=
  r < 2 ^ 32 ∧ t.chunksPerRegularPiece ≠ 0 ∧
    t.checkValidReceiveChunk (t.requestIndexToRequest r) = none

/-- The tables of requests agree. -/
structure OwnershipOf (conn : Nat → Bool) (conns peerIds : List Nat) (toRequest : Nat → Request)
    (valid : Nat → Prop) (B : Nat → Nat → Prop) (q : Reqs) : Prop where
  conns : ∀ p ∈ conns, conn p = true ∧ p ∈ peerIds
  owner : ∀ p r, q.owner r = some p ↔ r ∈ q.requests p
  bound : ∀ p r, r ∈ q.requests p → B p r
  disjoint : ∀ p r, r ∈ q.requests p → r ∉ q.cancelled p
  expected : ∀ p r, r ∈ q.requests p ∨ r ∈ q.cancelled p → 1 ≤ q.validReceiveChunks p r
  valid : ∀ p r, r ∈ q.requests p ∨ r ∈ q.cancelled p → valid r
  running : ∀ x ∈ q.running, x.1 ∈ peerIds ∧ conn x.1 = false ∧
    ∃ r, toRequest r = x.2 ∧ (r ∈ q.requests x.1 ∨ r ∈ q.cancelled x.1)
  active : ∀ x ∈ q.running, x ∈ q.active
  nodup : q.running.Nodup

/-- The torrent's tables of requests agree, and only what `B` allows is requested. -/
def Owned (B : Nat → Nat → Prop) (t : Torrent) : Prop :=
  OwnershipOf t.isConn t.avail.conns t.avail.peerIds t.requestIndexToRequest t.ValidIndex B t.reqs

/-- Anything may be requested from anyone. -/
def AnyRequest (_ _ : Nat) : Prop := True

/-- All but this request. -/
def But (B : Nat → Nat → Prop) (p r p' r' : Nat) : Prop := B p' r' ∧ ¬ (p' = p ∧ r' = r)

/-- All panics but those of tables that do not agree. -/
def TablesAgree (e : Panic) : Prop := e.group ≠ .request

variable {B B' : Nat → Nat → Prop} {t : Torrent} {p r : Nat}

/-! ## One request in one table -/

section Tables

variable {f : Nat → OrderedBitmap} {g : Nat → Bitmap} {p' r' : Nat}

theorem mem_update_remove :
    r' ∈ update f p ((f p).remove r) p' ↔ r' ∈ f p' ∧ ¬ (p' = p ∧ r' = r) := by
  by_cases hp : p' = p
  · subst hp
    simp
  · simp [hp]

theorem mem_update_add : r' ∈ update f p ((f p).add r) p' ↔ r' ∈ f p' ∨ (p' = p ∧ r' = r) := by
  by_cases hp : p' = p
  · subst hp
    simp [or_comm]
  · simp [hp]

theorem mem_update_uncancel :
    r' ∈ update g p ((g p).remove r) p' ↔ r' ∈ g p' ∧ ¬ (p' = p ∧ r' = r) := by
  by_cases hp : p' = p
  · subst hp
    simp
  · simp [hp]

theorem mem_update_cancel : r' ∈ update g p ((g p).add r) p' ↔ r' ∈ g p' ∨ (p' = p ∧ r' = r) := by
  by_cases hp : p' = p
  · subst hp
    simp [or_comm]
  · simp [hp]

theorem update_count_of_ne {v : Nat → Nat → Nat} {n : Nat} (h : ¬ (p' = p ∧ r' = r)) :
    update v p (update (v p) r n) p' r' = v p' r' := by
  by_cases hp : p' = p
  · subst hp
    have hr : r' ≠ r := fun hr => h ⟨rfl, hr⟩
    rw [update_self, update_of_ne hr]
  · rw [update_of_ne hp]

end Tables

namespace OwnershipOf

variable {conn : Nat → Bool} {conns peerIds : List Nat} {toRequest : Nat → Request}
  {valid : Nat → Prop} {q : Reqs}

section
variable (h : OwnershipOf conn conns peerIds toRequest valid B q)
include h

theorem mono (hB : ∀ p r, B p r → B' p r) : OwnershipOf conn conns peerIds toRequest valid B' q :=
  { h with bound := fun p r hr => hB p r (h.bound p r hr) }

theorem not_running_of_conn (hp : conn p = true) (rq : Request) : (p, rq) ∉ q.running := by
  intro hmem
  have := (h.running _ hmem).2.1
  rw [hp] at this
  cases this

theorem owner_removed (hr : r ∈ q.requests p) (p' r' : Nat) :
    update q.owner r none r' = some p' ↔ r' ∈ update q.requests p ((q.requests p).remove r) p' := by
  rw [mem_update_remove]
  by_cases hr' : r' = r
  · subst hr'
    have hp : q.owner r' = some p := (h.owner p r').mpr hr
    simp only [update_self, reduceCtorEq, false_iff, not_and, not_not, and_true]
    intro hmem
    have hp' := (h.owner p' r').mpr hmem
    exact some.inj (hp'.symm.trans hp)
  · rw [update_of_ne hr', h.owner p' r']
    simp [hr']

theorem withdrawn (hr : r ∈ q.requests p) (hrun : (p, toRequest r) ∉ q.running) :
    OwnershipOf conn conns peerIds toRequest valid (But B p r)
      { q with
        requests := update q.requests p ((q.requests p).remove r)
        owner := update q.owner r none } where
  conns := h.conns
  owner := h.owner_removed hr
  bound p' r' hr' := by
    obtain ⟨hmem, hne⟩ := mem_update_remove.mp hr'
    exact ⟨h.bound p' r' hmem, hne⟩
  disjoint p' r' hr' := h.disjoint p' r' (mem_update_remove.mp hr').1
  expected p' r' hr' := h.expected p' r' (hr'.imp_left fun hm => (mem_update_remove.mp hm).1)
  valid p' r' hr' := h.valid p' r' (hr'.imp_left fun hm => (mem_update_remove.mp hm).1)
  running := by
    rintro ⟨p', rq⟩ hx
    obtain ⟨hknown, hconn, r', rfl, hmem⟩ := h.running _ hx
    refine ⟨hknown, hconn, r', rfl, hmem.imp_left fun hm => mem_update_remove.mpr ⟨hm, ?_⟩⟩
    rintro ⟨rfl, rfl⟩
    exact hrun hx
  active := h.active
  nodup := h.nodup

theorem cancelled (hr : r ∈ q.requests p) :
    OwnershipOf conn conns peerIds toRequest valid (But B p r)
      { q with
        requests := update q.requests p ((q.requests p).remove r)
        owner := update q.owner r none
        cancelled := update q.cancelled p ((q.cancelled p).add r) } where
  conns := h.conns
  owner := h.owner_removed hr
  bound p' r' hr' := by
    obtain ⟨hmem, hne⟩ := mem_update_remove.mp hr'
    exact ⟨h.bound p' r' hmem, hne⟩
  disjoint p' r' hr' hc := by
    obtain ⟨hmem, hne⟩ := mem_update_remove.mp hr'
    rcases mem_update_cancel.mp hc with hc | heq
    · exact h.disjoint p' r' hmem hc
    · exact hne heq
  expected p' r' hr' := by
    rcases hr' with hr' | hc
    · exact h.expected p' r' (.inl (mem_update_remove.mp hr').1)
    · rcases mem_update_cancel.mp hc with hc | ⟨rfl, rfl⟩
      · exact h.expected p' r' (.inr hc)
      · exact h.expected p' r' (.inl hr)
  valid p' r' hr' := by
    rcases hr' with hr' | hc
    · exact h.valid p' r' (.inl (mem_update_remove.mp hr').1)
    · rcases mem_update_cancel.mp hc with hc | ⟨rfl, rfl⟩
      · exact h.valid p' r' (.inr hc)
      · exact h.valid p' r' (.inl hr)
  running := by
    rintro ⟨p', rq⟩ hx
    obtain ⟨hknown, hconn, r', rfl, hmem⟩ := h.running _ hx
    refine ⟨hknown, hconn, r', rfl, ?_⟩
    -- what runs stays on the books: as a request, or now as a cancelled one
    by_cases heq : p' = p ∧ r' = r
    · exact .inr (mem_update_cancel.mpr (.inr heq))
    · exact hmem.imp (fun hm => mem_update_remove.mpr ⟨hm, heq⟩)
        fun hm => mem_update_cancel.mpr (.inl hm)
  active := h.active
  nodup := h.nodup

theorem acknowledged (hrun : (p, toRequest r) ∉ q.running) :
    OwnershipOf conn conns peerIds toRequest valid B
      { q with cancelled := update q.cancelled p ((q.cancelled p).remove r) } where
  conns := h.conns
  owner := h.owner
  bound := h.bound
  disjoint p' r' hr' hc := h.disjoint p' r' hr' (mem_update_uncancel.mp hc).1
  expected p' r' hr' := h.expected p' r' (hr'.imp_right fun hm => (mem_update_uncancel.mp hm).1)
  valid p' r' hr' := h.valid p' r' (hr'.imp_right fun hm => (mem_update_uncancel.mp hm).1)
  running := by
    rintro ⟨p', rq⟩ hx
    obtain ⟨hknown, hconn, r', rfl, hmem⟩ := h.running _ hx
    refine ⟨hknown, hconn, r', rfl, hmem.imp_right fun hm => mem_update_uncancel.mpr ⟨hm, ?_⟩⟩
    rintro ⟨rfl, rfl⟩
    exact hrun hx
  active := h.active
  nodup := h.nodup

theorem unexpected (hr : r ∉ q.requests p) (hc : r ∉ q.cancelled p) (n : Nat) :
    OwnershipOf conn conns peerIds toRequest valid B
      { q with
        validReceiveChunks := update q.validReceiveChunks p
          (update (q.validReceiveChunks p) r n) } :=
  { h with
    expected := fun p' r' hr' => by
      dsimp only
      rw [update_count_of_ne]
      · exact h.expected p' r' hr'
      · rintro ⟨rfl, rfl⟩
        exact hr'.elim hr hc }

end

theorem requested (h : OwnershipOf conn conns peerIds toRequest valid AnyRequest q)
    (howner : q.owner r = none) (hc : r ∉ q.cancelled p) (hvalid : valid r) :
    OwnershipOf conn conns peerIds toRequest valid AnyRequest
      { q with
        requests := update q.requests p ((q.requests p).add r)
        validReceiveChunks := update q.validReceiveChunks p
          (update (q.validReceiveChunks p) r (q.validReceiveChunks p r + 1))
        owner := update q.owner r (some p) } where
  conns := h.conns
  owner p' r' := by
    dsimp only
    rw [mem_update_add]
    by_cases hr' : r' = r
    · subst hr'
      have hnone : r' ∉ q.requests p' := fun hm => by
        rw [← h.owner p' r', howner] at hm
        cases hm
      simp [hnone, eq_comm]
    · rw [update_of_ne hr', h.owner p' r']
      simp [hr']
  bound _ _ _ := trivial
  disjoint p' r' hr' hc' := by
    rcases mem_update_add.mp hr' with hr' | ⟨rfl, rfl⟩
    · exact h.disjoint p' r' hr' hc'
    · exact hc hc'
  expected p' r' hr' := by
    dsimp only at hr' ⊢
    by_cases heq : p' = p ∧ r' = r
    · obtain ⟨rfl, rfl⟩ := heq
      simp
    · rw [update_count_of_ne heq]
      refine h.expected p' r' (hr'.imp_left fun hm => ?_)
      exact (mem_update_add.mp hm).resolve_right heq
  valid p' r' hr' := by
    rcases hr' with hr' | hc'
    · rcases mem_update_add.mp hr' with hr' | ⟨rfl, rfl⟩
      · exact h.valid p' r' (.inl hr')
      · exact hvalid
    · exact h.valid p' r' (.inr hc')
  running x hx := by
    obtain ⟨hknown, hconn, r', hreq, hmem⟩ := h.running x hx
    exact ⟨hknown, hconn, r', hreq, hmem.imp_left fun hm => mem_update_add.mpr (.inl hm)⟩
  active := h.active
  nodup := h.nodup

end OwnershipOf

theorem owned_availFree (B : Nat → Nat → Prop) : AvailFree TablesAgree (Owned B) where
  availPanic e h := by rcases h with h | h | h <;> simp [TablesAgree, h]

/-! ## Deleting and cancelling -/

/-- The request is taken out of `Requests` and `requestState`. -/
def Torrent.withdrawn (t : Torrent) (p r : Nat) : Torrent :=
  { t with
    reqs.requests := update t.reqs.requests p ((t.reqs.requests p).remove r)
    reqs.owner := update t.reqs.owner r none }

theorem deleteRequest_ends (h : r ∈ t.reqs.requests p → t.reqs.owner r = some p) :
    Ends TablesAgree
      (fun x => x = if r ∈ t.reqs.requests p then (t.withdrawn p r, true) else (t, false))
      (t.deleteRequest p r) := by
  unfold deleteRequest
  by_cases hr : r ∈ t.reqs.requests p
  · rw [if_neg (not_not.mpr hr), if_neg (not_not.mpr (h hr)), if_pos hr]
    rfl
  · rw [if_pos hr, if_neg hr]
    rfl

namespace Owned

theorem weaken (h : Owned B t) : Owned AnyRequest t := h.mono fun _ _ _ => trivial

theorem but (h : Owned (But B p r) t) : Owned B t := h.mono fun _ _ hb => hb.1

theorem deleteRequest (h : Owned B t) (hr : r ∈ t.reqs.requests p) :
    Ends TablesAgree (fun x => x = (t.withdrawn p r, true)) (t.deleteRequest p r) := by
  have hdel := deleteRequest_ends (h.owner p r).mpr
  rwa [if_pos hr] at hdel

theorem not_running_of_not_acked (h : Owned B t) (hacked : t.cancelAcked p r = false) :
    (p, t.requestIndexToRequest r) ∉ t.reqs.running := by
  intro hrun
  unfold cancelAcked at hacked
  split at hacked
  · rename_i hkind
    have hconn := (h.running _ hrun).2.1
    simp [isConn, hkind] at hconn
  · exact of_decide_eq_false hacked (h.active _ hrun)

theorem cancel (h : Owned B t) (hr : r ∈ t.reqs.requests p) :
    Ends TablesAgree (fun t' => Owned (But B p r) t' ∧
      t'.reqs.requests p = (t.reqs.requests p).remove r ∧ t'.reqs.owner r = none)
      (t.cancel p r) := by
  have hgone : (t.withdrawn p r).reqs.requests p = (t.reqs.requests p).remove r ∧
      (t.withdrawn p r).reqs.owner r = none :=
    ⟨update_self _ _ _, update_self _ _ _⟩
  have haside : Aside fun t' : Torrent => Owned (But B p r) t' ∧
      t'.reqs.requests p = (t.reqs.requests p).remove r ∧ t'.reqs.owner r = none :=
    ⟨fun h _ _ => h, fun h _ _ => h, fun h _ _ => h⟩
  have hacked : Aside fun t' : Torrent => Owned (But B p r) { t' with
      reqs.cancelled := update t'.reqs.cancelled p ((t'.reqs.cancelled p).add r) } ∧
      r ∉ t'.reqs.cancelled p ∧
      t'.reqs.requests p = (t.reqs.requests p).remove r ∧ t'.reqs.owner r = none :=
    ⟨fun h _ _ => h, fun h _ _ => h, fun h _ _ => h⟩
  refine (h.deleteRequest hr).bind ?_
  rintro _ rfl
  refine Ends.require (fun _ => ?_) fun hno => absurd rfl hno
  have hadd : Ends TablesAgree (fun t' => Owned (But B p r) t' ∧
      t'.reqs.requests p = (t.reqs.requests p).remove r ∧ t'.reqs.owner r = none)
      (doIf ((t.withdrawn p r).cancelAcked p r) ((t.withdrawn p r).writeCancel p)
        (((t.withdrawn p r).writeCancel p).addCancelled p r)) := by
    refine Ends.doIf (fun _ => ?_) fun hno => ?_
    · obtain ⟨howned, hfree, hrest⟩ :=
        hacked.writeCancel (t := t.withdrawn p r) ⟨h.cancelled hr, h.disjoint p r hr, hgone⟩ p
      rw [addCancelled, if_neg hfree]
      exact ⟨howned, hrest⟩
    · have hrun := h.not_running_of_not_acked (eq_false_of_ne_true hno)
      exact haside.writeCancel (t := t.withdrawn p r) ⟨h.withdrawn hr hrun, hgone⟩ p
  refine hadd.bind fun t₁ ht₁ => ?_
  exact haside.updateIfLow (haside.decPeakRequests ht₁ p) p _

theorem cancelRequest (h : Owned B t) (r : Nat) :
    Ends TablesAgree (fun t' => Owned B t' ∧ t'.reqs.owner r = none) (t.cancelRequest r) := by
  have hcancel : Ends TablesAgree (fun t' => Owned B t' ∧ t'.reqs.owner r = none)
      (t.cancelRequesting r) := by
    unfold cancelRequesting
    split
    · rename_i p howner
      exact (h.cancel ((h.owner p r).mp howner)).imp fun _ ht' => ⟨ht'.1.but, ht'.2.2⟩
    · rename_i hnone
      exact ⟨h, hnone⟩
  refine hcancel.bind fun t₁ ht₁ => ?_
  exact Ends.require (fun _ => ht₁) fun hno => absurd ht₁.2 hno

/-! ## All requests of a peer -/

theorem drain {P : Torrent → Prop} {f : Torrent → Nat → Except Panic Torrent}
    (hf : ∀ {t' : Torrent} {r}, Owned B t' → P t' → r ∈ t'.reqs.requests p →
      Ends TablesAgree (fun t'' => (Owned B t'' ∧ P t'') ∧
        t''.reqs.requests p = (t'.reqs.requests p).remove r) (f t' r))
    (h : Owned B t) (hP : P t) :
    Ends TablesAgree (fun t' => Owned B t' ∧ P t' ∧ (t'.reqs.requests p).isEmpty = true)
      ((t.reqs.requests p).bitmap.elems.foldlM f t) := by
  -- what is still to come is what is still requested
  refine (Ends.foldlM_list (I := fun l t' => (Owned B t' ∧ P t') ∧ l.Nodup ∧
    ∀ r, r ∈ t'.reqs.requests p ↔ r ∈ l)
    ⟨⟨h, hP⟩, (t.reqs.requests p).bitmap.nodup, fun _ => Iff.rfl⟩ ?_).imp ?_
  · rintro r l t' ⟨⟨ht', hP'⟩, hnodup, hmem⟩
    obtain ⟨hr, hl⟩ := nodup_cons.mp hnodup
    refine (hf ht' hP' ((hmem r).mpr mem_cons_self)).imp fun t'' ⟨ht'', hreqs⟩ =>
      ⟨ht'', hl, fun r' => ?_⟩
    rw [hreqs, OrderedBitmap.mem_remove, hmem r', mem_cons]
    constructor
    · rintro ⟨rfl | hr', hne⟩
      · exact absurd rfl hne
      · exact hr'
    · intro hr'
      exact ⟨.inr hr', fun heq => hr (heq ▸ hr')⟩
  · rintro t' ⟨⟨ht', hP'⟩, -, hmem⟩
    exact ⟨ht', hP', OrderedBitmap.isEmpty_iff.mpr fun r hr => not_mem_nil ((hmem r).mp hr)⟩

theorem cancelAllRequests (h : Owned B t) (p : Nat) :
    Ends TablesAgree (Owned B) (t.cancelAllRequests p) := by
  refine (h.drain (P := fun _ => True) (fun ht' _ hr => ?_) trivial).bind
    fun t₁ ⟨ht₁, _, hempty⟩ => ?_
  · exact (ht'.cancel hr).imp fun _ ht'' => ⟨⟨ht''.1.but, trivial⟩, ht''.2.1⟩
  · exact Ends.require (fun _ => ht₁) fun hno => absurd hempty hno

theorem deleteAllRequests (h : Owned B t) (hp : t.isConn p = true) (reason : UpdateReason) :
    Ends TablesAgree (Owned B) (t.deleteAllRequests p reason) := by
  unfold Torrent.deleteAllRequests
  split_ifs
  · exact h
  · refine (h.drain (P := fun t' => t'.isConn p = true) (fun {t' r} ht' hp' hr => ?_) hp).bind
      fun t₁ ⟨ht₁, _, hempty⟩ => ?_
    · refine (ht'.deleteRequest hr).bind ?_
      rintro _ rfl
      refine Ends.require (fun _ => ?_) fun hno => absurd rfl hno
      exact ⟨⟨(ht'.withdrawn hr (ht'.not_running_of_conn hp' _)).mono fun _ _ hb => hb.1, hp'⟩,
        update_self _ _ _⟩
    · refine Ends.require (fun _ => ?_) fun hno => absurd hempty hno
      exact (owned_availFree B).updateLowPeers ht₁ reason

/-! ## Closing and dropping -/

theorem close (h : Owned B t) (p : Nat) : Ends TablesAgree (Owned B) (t.close p) := by
  unfold Torrent.close
  split_ifs
  · exact h
  · have hclose : Ends TablesAgree (Owned B)
        ({ t with avail.closed := update t.avail.closed p true }.onClose p) := by
      have h₁ := (owned_availFree B).closed h p
      unfold onClose
      split
      · exact h₁
      · exact (h₁.cancelAllRequests p).bind fun _ ht' =>
          (owned_availFree B).updateLowPeers ht' _
    exact hclose.bind fun _ ht' => (owned_availFree B).safe.decPeerPieceAvailability ht' p

theorem dropConnection (h : Owned B t) (hp : t.isConn p = true) :
    Ends TablesAgree (Owned B) (t.dropConnection p) := by
  refine ((h.close p).and ((sameKinds_peersFree t).safe.close (.refl t) p)).bind
    fun t₁ ⟨ht₁, hk₁⟩ => ?_
  refine Ends.require (fun _ => ?_) fun _ => nofun
  have ht₂ : Owned B { t₁ with avail.conns := t₁.avail.conns.erase p } :=
    { ht₁ with conns := fun q hq => ht₁.conns q (mem_of_mem_erase hq) }
  refine (ht₂.deleteAllRequests ((hk₁.isConn p).trans hp) _).bind fun t₃ ht₃ => ?_
  exact Ends.require (fun _ => ht₃) fun _ => nofun

theorem maybeDrop (h : Owned B t) (p : Nat) :
    Ends TablesAgree (Owned B) (t.maybeDropMutuallyCompletePeer p) :=
  ends_maybeDrop p h fun _ hconn => h.dropConnection hconn

end Owned

theorem owned_plain (B : Nat → Nat → Prop) :
    Plain TablesAgree (fun _ => True) (Owned B) where
  toAside := (owned_availFree B).toAside
  index e he := by simp [TablesAgree, he]
  order _ h := (owned_availFree B).updatePieceRequestOrder h _
  pendAll _ _ h := h
  complete _ _ h _ := h
  cancelRequest h r := (h.cancelRequest r).imp fun _ ht' => ht'.1
  drop h hp _ := h.dropConnection (h.conns _ hp).1
  flags h _ _ _ _ _ := h

/-! ## Making requests -/

theorem shouldRequest_ends (t : Torrent) (p r : Nat) :
    Ends TablesAgree (fun _ => t.chunksPerRegularPiece ≠ 0 ∧
      t.checkValidReceiveChunk (t.requestIndexToRequest r) = none ∧ r ∉ t.reqs.cancelled p)
      (t.shouldRequest p r) := by
  unfold shouldRequest
  split_ifs with hcpp
  · exact nofun
  · exact nofun
  · split
    · exact nofun
    · rename_i hfault
      unfold requestFault at hfault
      dsimp only at hfault
      have hvalid : ¬ (t.checkValidReceiveChunk (t.requestIndexToRequest r)).isSome := by
        intro h
        rw [if_pos h] at hfault
        exact nomatch hfault
      have hcancelled : r ∉ t.reqs.cancelled p := by
        intro h
        rw [if_neg hvalid, if_pos h] at hfault
        exact nomatch hfault
      exact ⟨hcpp, by simpa using hvalid, hcancelled⟩

namespace Owned

theorem mustRequest (h : Owned AnyRequest t) (hr : r < 2 ^ 32)
    (howner : t.reqs.owner r = none ∨ t.reqs.owner r = some p) :
    Ends TablesAgree (fun x => Owned AnyRequest x.1) (t.mustRequest p r) := by
  refine (shouldRequest_ends t p r).bind ?_
  rintro - ⟨hcpp, hvalid, hcancelled⟩
  split_ifs with hmem
  · exact h
  · refine Ends.require (fun _ => ?_) fun _ => PanicGroup.noConfusion
    have hnone : t.reqs.owner r = none :=
      howner.resolve_right fun hsome => hmem ((h.owner p r).mp hsome)
    have hadd : Owned AnyRequest (t.addRequest p r) :=
      h.requested hnone hcancelled ⟨hr, hcpp, hvalid⟩
    exact (owned_availFree _).sendRequest hadd p

theorem takeRequest (h : Owned AnyRequest t) (p r : Nat) :
    Ends TablesAgree (fun x => ∀ t' ∈ x, Owned AnyRequest t' ∧
      (t'.reqs.owner r = none ∨ t'.reqs.owner r = some p)) (t.takeRequest p r) := by
  unfold Torrent.takeRequest
  split
  · rename_i hnone
    intro t' ht'
    exact some.inj ht' ▸ ⟨h, .inl hnone⟩
  · rename_i existing hsome
    split_ifs with hp
    · intro t' ht'
      exact some.inj ht' ▸ ⟨h, .inr (hp ▸ hsome)⟩
    · intro t' ht'
      cases ht'
    · refine (h.cancelRequest r).bind fun t'' ht'' => ?_
      intro t' ht'
      exact some.inj ht' ▸ ⟨ht''.1, .inl ht''.2⟩

theorem applyRequests (p : Nat) (pops : List Nat) (hpops : ∀ r ∈ pops, r < 2 ^ 32)
    (h : Owned AnyRequest t) :
    Ends TablesAgree (fun x => Owned AnyRequest x.1) (applyRequests p pops t) := by
  refine applyRequests_ends (K := fun pops t => (∀ r ∈ pops, r < 2 ^ 32) ∧ Owned AnyRequest t)
    (T := fun req pops t => (∀ r ∈ req :: pops, r < 2 ^ 32) ∧ Owned AnyRequest t ∧
      (t.reqs.owner req = none ∨ t.reqs.owner req = some p))
    (fun h => h.2) (fun h => ?_) (fun h => ?_) (fun h _ => ?_) ⟨hpops, h⟩
  · exact ⟨fun r hr => h.1 r (mem_cons_of_mem _ hr), h.2⟩
  · exact (h.2.takeRequest p _).imp fun x hx t' ht' => ⟨h.1, hx t' ht'⟩
  · refine (h.2.1.mustRequest (h.1 _ mem_cons_self) h.2.2).imp fun ⟨t₁, more⟩ ht₁ => ?_
    cases more with
    | true => exact ⟨fun r hr => h.1 r (mem_cons_of_mem _ hr), ht₁⟩
    | false => exact ht₁

end Owned

theorem getDesiredRequestState_lt (t : Torrent) (p : Nat) (input : StrategyInput) :
    Ends TablesAgree (fun next => ∀ r ∈ next.requests, r < 2 ^ 32)
      (t.getDesiredRequestState p input) := by
  unfold getDesiredRequestState
  split_ifs
  · exact fun r hr => (not_mem_nil hr).elim
  · exact fun r hr => (not_mem_nil hr).elim
  · exact nofun
  · intro r hr
    obtain ⟨item, -, hr⟩ := mem_flatMap.mp hr
    have hrange := (mem_filter.mp (mem_filter.mp hr).1).1
    have := u32_lt (t.pieceRequestIndexOffset item.index + t.pieceNumChunks item.index)
    have := mem_range'_1.mp hrange
    omega

theorem mem_popOrder {requests pops : List Nat} (h : r ∈ t.popOrder p requests pops) :
    r ∈ requests := by
  unfold popOrder at h
  split_ifs at h with hpops
  · exact (isPerm_iff.mp hpops.1).mem_iff.mp h
  · exact (perm_insertionSort _ _).mem_iff.mp h

theorem Owned.update (h : Owned AnyRequest t) (p : Nat) (input : StrategyInput) (pops : List Nat) :
    Ends TablesAgree (Owned AnyRequest) (t.maybeUpdateActualRequestState p input pops) := by
  have ha := owned_availFree AnyRequest
  unfold maybeUpdateActualRequestState
  split_ifs
  · exact h
  · exact h
  · refine (getDesiredRequestState_lt t p input).bind fun next hnext => ?_
    refine Ends.require (fun _ => ?_) fun _ => nofun
    refine Ends.require (fun _ => ?_) fun _ => nofun
    refine ((ha.setInterested h p next.interested).applyRequests p _
      fun r hr => hnext r (mem_popOrder hr)).bind fun ⟨t₁, more⟩ ht₁ => ?_
    exact Ends.require (fun _ => ha.requestsUpdated ht₁ p _) fun _ => nofun

/-! ## Answers -/

/-- A chunk of the peer is not expected any more. -/
def Torrent.unexpect (t : Torrent) (p r : Nat) : Torrent :=
  { t with
    reqs.validReceiveChunks := update t.reqs.validReceiveChunks p
      (update (t.reqs.validReceiveChunks p) r (t.reqs.validReceiveChunks p r - 1)) }

theorem decExpectedChunkReceive_ends (h : t.reqs.validReceiveChunks p r ≠ 0) :
    Ends TablesAgree (fun t' => t' = t.unexpect p r) (t.decExpectedChunkReceive p r) := by
  rw [decExpectedChunkReceive, if_neg h]
  rfl

/-- The peer has acknowledged a cancel. -/
def Torrent.acknowledged (t : Torrent) (p r : Nat) : Torrent :=
  { t with reqs.cancelled := update t.reqs.cancelled p ((t.reqs.cancelled p).remove r) }

namespace Owned

theorem without (h : Owned B t) (hr : r ∉ t.reqs.requests p) : Owned (But B p r) t :=
  { h with
    bound := fun p' r' hr' => ⟨h.bound p' r' hr', by
      rintro ⟨rfl, rfl⟩
      exact hr hr'⟩ }

/-! A request that does not run is answered: it was outstanding, cancelled, or neither. -/

theorem answered_requested (h : Owned B t) (hr : r ∈ t.reqs.requests p)
    (hrun : (p, t.requestIndexToRequest r) ∉ t.reqs.running) :
    Owned (But B p r) ((t.withdrawn p r).unexpect p r) :=
  (h.withdrawn hr hrun).unexpected (fun hm => (mem_update_remove.mp hm).2 ⟨rfl, rfl⟩)
    (h.disjoint p r hr) _

theorem answered_cancelled (h : Owned B t) (hr : r ∉ t.reqs.requests p)
    (hrun : (p, t.requestIndexToRequest r) ∉ t.reqs.running) :
    Owned (But B p r) ((t.acknowledged p r).unexpect p r) :=
  ((h.without hr).acknowledged hrun).unexpected hr
    (fun hm => (mem_update_uncancel.mp hm).2 ⟨rfl, rfl⟩) _

theorem answered_neither (h : Owned B t) (hr : r ∉ t.reqs.requests p)
    (hc : r ∉ t.reqs.cancelled p) : Owned (But B p r) (t.unexpect p r) :=
  (h.without hr).unexpected hr hc _

theorem requestSatisfied (h : Owned B t)
    (hrun : (p, t.requestIndexToRequest r) ∉ t.reqs.running) :
    Ends TablesAgree (Owned (But B p r)) ((t.unexpect p r).requestSatisfied p r) := by
  have ha := owned_availFree (But B p r)
  have htake : Ends TablesAgree (fun x => Owned (But B p r) x.1)
      ((t.unexpect p r).takeIntended p r) := by
    refine (deleteRequest_ends (t := t.unexpect p r) (h.owner p r).mpr).bind ?_
    rintro _ rfl
    by_cases hr : r ∈ (t.unexpect p r).reqs.requests p
    · rw [if_pos hr]
      exact h.answered_requested hr hrun
    · rw [if_neg hr]
      by_cases hc : r ∈ t.reqs.cancelled p
      · have : (t.unexpect p r).removeCancelled p r = ((t.acknowledged p r).unexpect p r, true) :=
          if_pos hc
        dsimp only
        rw [if_neg Bool.false_ne_true, this]
        exact h.answered_cancelled hr hrun
      · have : (t.unexpect p r).removeCancelled p r = (t.unexpect p r, false) := if_neg hc
        dsimp only
        rw [if_neg Bool.false_ne_true, this]
        exact h.answered_neither hr hc
  refine htake.bind fun ⟨t₁, intended⟩ ht₁ => ?_
  cases intended with
  | true => exact ha.updateIfLow ht₁ p _
  | false => exact ht₁

theorem remoteRejectedRequest (h : Owned AnyRequest t)
    (hrun : (p, t.requestIndexToRequest r) ∉ t.reqs.running) :
    Ends TablesAgree (fun x => Owned AnyRequest x.1 ∧
      (r ∈ t.reqs.requests p ∨ r ∈ t.reqs.cancelled p → x.2 = true))
      (t.remoteRejectedRequest p r) := by
  have haside : Aside fun t' : Torrent => Owned (But AnyRequest p r) (t'.unexpect p r) ∧
      t'.reqs.validReceiveChunks p r ≠ 0 :=
    ⟨fun h _ _ => h, fun h _ _ => h, fun h _ _ => h⟩
  have hreject : Ends TablesAgree (fun x => if x.2 = true then
      Owned (But AnyRequest p r) (x.1.unexpect p r) ∧ x.1.reqs.validReceiveChunks p r ≠ 0
      else x.1 = t ∧ r ∉ t.reqs.requests p ∧ r ∉ t.reqs.cancelled p) (t.rejectRequest p r) := by
    refine (deleteRequest_ends (h.owner p r).mpr).bind ?_
    rintro _ rfl
    by_cases hr : r ∈ t.reqs.requests p
    · rw [if_pos hr]
      have hpos := h.expected p r (.inl hr)
      exact haside.decPeakRequests (t := t.withdrawn p r)
        ⟨h.answered_requested hr hrun, by change t.reqs.validReceiveChunks p r ≠ 0; omega⟩ p
    · rw [if_neg hr]
      by_cases hc : r ∈ t.reqs.cancelled p
      · have heq : t.removeCancelled p r = (t.acknowledged p r, true) := if_pos hc
        have hpos := h.expected p r (.inr hc)
        dsimp only
        rw [if_neg Bool.false_ne_true, heq]
        exact ⟨h.answered_cancelled hr hrun, by
          change t.reqs.validReceiveChunks p r ≠ 0
          omega⟩
      · have heq : t.removeCancelled p r = (t, false) := if_neg hc
        dsimp only
        rw [if_neg Bool.false_ne_true, heq]
        exact ⟨rfl, hr, hc⟩
  refine hreject.bind fun ⟨t₁, valid⟩ ht₁ => ?_
  cases valid with
  | false =>
    obtain ⟨rfl, hr, hc⟩ := ht₁
    exact ⟨h, fun hor => (hor.elim hr hc).elim⟩
  | true =>
    obtain ⟨ht₂, hpos⟩ := haside.updateIfLow ht₁ p .rejected
    refine (decExpectedChunkReceive_ends hpos).bind ?_
    rintro _ rfl
    exact ⟨ht₂.but, fun _ => rfl⟩

end Owned

theorem owned_dataFree (B : Nat → Nat → Prop) : DataFree TablesAgree (Owned B) where
  toPlain := owned_plain B
  storePanic e he := by simp [TablesAgree, he]

namespace Owned

theorem cancelOther (h : Owned (But B p r) t) :
    Ends TablesAgree (Owned (But B p r)) (t.cancelOther p r) := by
  unfold Torrent.cancelOther
  split
  · exact h
  · rename_i q howner
    have hr : r ∈ t.reqs.requests q := (h.owner q r).mp howner
    split_ifs with hq
    · exact absurd ⟨hq, rfl⟩ (h.bound q r hr).2
    · exact (h.cancel hr).imp fun _ ht' => ht'.1.but

theorem receiveChunk (h : Owned AnyRequest t) (index begin : Nat) (data : List UInt8)
    (hrun : (p, t.requestIndexToRequest (t.requestIndexFromRequest ⟨index, begin, u32 data.length⟩))
      ∉ t.reqs.running) (now : Nat) :
    Ends TablesAgree (fun x => Owned AnyRequest x.1 ∧
      (t.checkValidReceiveChunk ⟨index, begin, u32 data.length⟩ = none →
        t.reqs.validReceiveChunks p
          (t.requestIndexFromRequest ⟨index, begin, u32 data.length⟩) ≠ 0 →
        x.2 = none)) (t.receiveChunk p index begin data now) := by
  unfold Torrent.receiveChunk
  dsimp only
  split
  · rename_i hsome
    exact ⟨h, fun hnone => nomatch hsome.symm.trans hnone⟩
  · split_ifs with hexpect
    · exact ⟨h, fun _ hne => absurd hexpect hne⟩
    · refine (decExpectedChunkReceive_ends hexpect).bind ?_
      rintro _ rfl
      refine (h.requestSatisfied hrun).bind fun t₁ ht₁ => ?_
      split_ifs
      · exact ⟨ht₁.but, fun _ _ => rfl⟩
      · refine ((owned_dataFree _).writesFree.beginWrite ht₁ _ now fun ht' => ht'.cancelOther).bind
          fun t₂ ht₂ => ?_
        exact ⟨ht₂.but, fun _ _ => rfl⟩

end Owned

/-! ## Webseeds -/

theorem Torrent.ValidIndex.fromRequest (h : t.ValidIndex r) :
    t.requestIndexFromRequest (t.requestIndexToRequest r) = r := by
  obtain ⟨hr, hcpp, -⟩ := h
  cases hinfo : t.info with
  | none => simp [chunksPerRegularPiece, hinfo] at hcpp
  | some info =>
    have hpos : 0 < info.chunksPerRegularPiece t.cfg.chunkSize := by
      simp only [chunksPerRegularPiece, hinfo, map_some, getD_some] at hcpp
      exact Nat.pos_of_ne_zero hcpp
    simp only [requestIndexFromRequest, requestIndexToRequest, pieceRequestIndexOffset, hinfo,
      map_some, getD_some]
    exact Info.requestIndexFromRequest_toRequest t.cfg.chunkSize_pos hpos hr

namespace Owned

theorem webseedRequest (h : Owned B t) (hp : p ∈ t.avail.peerIds) (hweb : t.isConn p = false) :
    Ends TablesAgree (Owned B) (t.webseedRequest p) := by
  unfold Torrent.webseedRequest
  split
  · exact h
  · rename_i rq hfind
    split_ifs
    · exact nofun
    · have hidle : (p, rq) ∉ t.reqs.active :=
        of_decide_eq_true (find?_some (p := fun r => decide ((p, r) ∉ t.reqs.active)) hfind)
      obtain ⟨r, hr, hrq⟩ := mem_map.mp (mem_of_find?_eq_some hfind)
      have hmem : r ∈ t.reqs.requests p := ((t.reqs.requests p).mem_order r).mp hr
      exact { h with
        running := fun x hx => by
          rcases mem_cons.mp hx with rfl | hx
          · exact ⟨hp, hweb, r, hrq, .inl hmem⟩
          · exact h.running x hx
        active := fun x hx => by
          rcases mem_cons.mp hx with rfl | hx
          · exact mem_cons_self
          · exact mem_cons_of_mem _ (h.active x hx)
        nodup := nodup_cons.mpr ⟨fun hx => hidle (h.active _ hx), h.nodup⟩ }

theorem webseedDone {rq : Request} (h : Owned B t) (hrun : (p, rq) ∉ t.reqs.running) :
    Owned B { t with reqs.active := t.reqs.active.erase (p, rq) } :=
  { h with
    active := fun x hx => by
      have hne : x ≠ (p, rq) := fun heq => hrun (heq ▸ hx)
      exact (mem_erase_of_ne hne).mpr (h.active x hx) }

/-- The result of a webseed's request is taken without an error: it is still on the books, as a
request or as a cancelled one. -/
theorem requestResultHandler {rq : Request} (h : Owned AnyRequest t)
    (hrun : (p, rq) ∈ t.reqs.running) (result : Option (List UInt8)) (now : Nat) :
    Ends TablesAgree (Owned AnyRequest) (t.requestResultHandler p rq result now) := by
  obtain ⟨-, -, r, hreq, hmem⟩ := h.running _ hrun
  dsimp only at hreq hmem
  have hvalid := h.valid p r hmem
  have hindex : t.requestIndexFromRequest rq = r := hreq ▸ hvalid.fromRequest
  have ht₁ : Owned AnyRequest { t with reqs.running := t.reqs.running.erase (p, rq) } :=
    { h with
      running := fun x hx => h.running x (mem_of_mem_erase hx)
      active := fun x hx => h.active x (mem_of_mem_erase hx)
      nodup := h.nodup.erase _ }
  have hdone : (p, t.requestIndexToRequest r) ∉ t.reqs.running.erase (p, rq) := by
    rw [hreq]
    exact h.nodup.not_mem_erase
  unfold Torrent.requestResultHandler
  dsimp only
  split_ifs
  · exact ht₁
  · cases result with
    | none =>
      have hindex₁ : { t with reqs.running := t.reqs.running.erase (p, rq) }.requestIndexFromRequest
          rq = r := hindex
      dsimp only
      rw [hindex₁]
      refine (ht₁.remoteRejectedRequest hdone).bind ?_
      rintro ⟨t₂, valid⟩ ⟨ht₂, hok⟩
      exact Ends.require (fun _ => ht₂) fun hno => absurd (hok hmem) hno
    | some bytes =>
      have hindex₁ : t.requestIndexFromRequest ⟨rq.index, rq.begin, u32 bytes.length⟩ = r := hindex
      have hcheck : t.checkValidReceiveChunk ⟨rq.index, rq.begin, u32 bytes.length⟩ = none :=
        hreq ▸ hvalid.2.2
      have hpos : t.reqs.validReceiveChunks p
          (t.requestIndexFromRequest ⟨rq.index, rq.begin, u32 bytes.length⟩) ≠ 0 := by
        rw [hindex₁]
        exact Nat.one_le_iff_ne_zero.mp (h.expected p r hmem)
      refine (ht₁.receiveChunk rq.index rq.begin bytes (hindex₁ ▸ hdone) now).bind ?_
      rintro ⟨t₂, err⟩ ⟨ht₂, hok⟩
      exact Ends.require (fun _ => ht₂) fun hno => absurd (hok hcheck hpos) hno

/-! ## Peers and the info -/

theorem newPeer (h : Owned B t) (hp : p ∉ t.avail.peerIds) (kind : PeerKind)
    (addr : Option (Nat × Nat)) (peerMaxRequests : Int) (choking : Bool) :
    Owned B (t.newPeer p kind addr peerMaxRequests choking) := by
  have hold : ∀ q ∈ t.avail.peerIds,
      (t.newPeer p kind addr peerMaxRequests choking).isConn q = t.isConn q :=
    fun q hq => newPeer_isConn t p kind addr peerMaxRequests choking fun heq => hp (heq ▸ hq)
  exact { h with
    conns := fun q hq => by
      obtain ⟨hconn, hknown⟩ := h.conns q hq
      exact ⟨(hold q hknown).trans hconn, mem_cons_of_mem p hknown⟩
    running := fun x hx => by
      obtain ⟨hknown, hconn, hreq⟩ := h.running x hx
      exact ⟨mem_cons_of_mem p hknown, (hold _ hknown).trans hconn, hreq⟩ }

theorem peerConnAdded (h : Owned B t) (hp : p ∉ t.avail.peerIds) (fast transmission : Bool)
    (addr : Option (Nat × Nat)) : Owned B (t.peerConnAdded p fast transmission addr) := by
  have ht₁ := h.newPeer hp (.conn fast transmission) addr 250 true
  have ht₂ : Owned B { t.newPeer p (.conn fast transmission) addr 250 true with
      avail.conns := p :: t.avail.conns } :=
    { ht₁ with
      conns := fun q hq => by
        rcases mem_cons.mp hq with rfl | hq
        · exact ⟨by simp [isConn, Torrent.newPeer], mem_cons_self⟩
        · exact ht₁.conns q hq }
  exact (owned_availFree B).peerConnAdded ht₂

theorem setInfo (h : Owned AnyRequest t) (hinfo : t.info = none) (info : Info) :
    Ends TablesAgree (Owned fun _ _ => False) (t.setInfo info) := by
  have hnone : ∀ p r, ¬ (r ∈ t.reqs.requests p ∨ r ∈ t.reqs.cancelled p) := by
    intro p r hmem
    have hcpp := (h.valid p r hmem).2.1
    simp [chunksPerRegularPiece, hinfo] at hcpp
  unfold Torrent.setInfo
  split_ifs
  · exact nofun
  · exact { h with
      bound := fun p r hr => hnone p r (.inl hr)
      valid := fun p r hmem => (hnone p r hmem).elim
      running := fun x hx => by
        obtain ⟨-, -, r, -, hmem⟩ := h.running x hx
        exact (hnone _ r hmem).elim }

theorem gotInfo (h : Owned AnyRequest t) (hinfo : t.info = none) (info : Info) :
    Ends TablesAgree (Owned AnyRequest) (t.gotInfo info) := by
  have ha := owned_availFree fun _ _ => False
  have hu := owned_plain fun _ _ => False
  unfold Torrent.gotInfo
  split_ifs
  · exact h
  · refine (h.setInfo hinfo info).bind fun t₁ ht₁ => ?_
    refine (Ends.foldlM ht₁ fun _ ht' i _ =>
      ha.onSetInfoPiece (I := fun _ _ => Owned fun _ _ => False) (S := ∅) (d := none) hu.toQueue
        ht' i).bind fun t₂ ht₂ => ?_
    have ht₃ : Owned (fun _ _ => False) { t₂ with reqs.owner := fun _ => none } :=
      { ht₂ with owner := fun p r => ⟨nofun, fun hr => (ht₂.bound p r hr).elim⟩ }
    refine (hu.tryCreateMorePieceHashers ht₃).bind fun t₄ ht₄ => ?_
    exact (Ends.foldlM ht₄ fun _ ht' p _ => ha.safe.onSetInfoPeer maybeDrop ht' p).imp
      fun _ ht' => ht'.weaken

end Owned

/-! ## Whole runs -/

theorem owned_aboutPeers : AboutPeers TablesAgree (fun _ _ => True) (Owned AnyRequest) where
  toDataFree := owned_dataFree AnyRequest
  gotInfo h _ hinfo _ := h.gotInfo hinfo _
  addPeerConn h hp := h.peerConnAdded hp _ _ _
  addWebSeed {_ _ _ addr} h hp :=
    (owned_availFree AnyRequest).addWebSeed (h.newPeer hp (.webseed _) addr 128 false)
  close h _ := h.close _
  dropConnection h _ hconn := h.dropConnection hconn
  deleteAllRequests h hconn := h.deleteAllRequests hconn _
  peerSentHave h _ _ := (owned_availFree AnyRequest).safe.peerSentHave Owned.maybeDrop h _ _
  peerSentBitfield h _ _ := (owned_availFree AnyRequest).safe.peerSentBitfield Owned.maybeDrop h _ _
  onPeerHasAllPieces h _ _ :=
    (owned_availFree AnyRequest).safe.onPeerHasAllPieces Owned.maybeDrop h _
  peerSentHaveNone h _ _ _ _ :=
    (owned_availFree AnyRequest).safe.peerSentHaveNone Owned.maybeDrop h _
  receiveChunk h hp :=
    (h.receiveChunk _ _ _ (h.not_running_of_conn (h.conns _ hp).1 _) _).imp fun _ hx => hx.1
  remoteRejectedRequest h hconn :=
    (h.remoteRejectedRequest (h.not_running_of_conn hconn _)).imp fun _ hx => hx.1
  fill h _ _ := h.update _ _ _
  updateWebseed h _ _ _ := h.update _ _ _
  webseedRequest h hp hweb := h.webseedRequest hp hweb
  webseedResult h hrun _ := h.requestResultHandler hrun _ _
  webseedDone h hrun := h.webseedDone hrun
  reorder h hperm := { h with conns := fun q hq => h.conns q (hperm.mem_iff.mp hq) }
  closeTorrent h := (owned_availFree AnyRequest).closeTorrent (fun h => h) Owned.close h

theorem owned_init (cfg : Config) (storage : Storage) : Owned AnyRequest (.init cfg storage) where
  conns _ hp := nomatch hp
  owner _ _ := ⟨nofun, fun hr => (not_mem_nil hr).elim⟩
  bound _ _ _ := trivial
  disjoint _ _ hr := (not_mem_nil hr).elim
  expected _ _ hr := (hr.elim not_mem_nil not_mem_nil).elim
  valid _ _ hr := (hr.elim not_mem_nil not_mem_nil).elim
  running _ hx := nomatch hx
  active _ hx := nomatch hx
  nodup := nodup_nil

/-- **Request ownership.** Whatever happens to a torrent, in any order: a chunk is requested from
the one peer that `requestState` names, no peer has a request that it also has as cancelled, and
every request, outstanding or cancelled, is expected. None of the panics of `deleteRequest`,
`cancel`, `cancelRequest`, `deleteAllRequests`, `decExpectedChunkReceive`, `receiveChunk` and
`requestResultHandler` is reached. -/
theorem request_ownership (cfg : Config) (storage : Storage) (events : List Event) :
    Ends (fun e => e ∉ [Panic.onlyOnePeer, .requestNotExisting, .alreadyCancelled,
        .requestShouldExist, .requestsLeft, .requestStateLeft, .notExpected, .pendingFromReceiver,
        .invalidReject, .webseedReceive])
      (fun t => (∀ p r, t.reqs.owner r = some p ↔ r ∈ t.reqs.requests p) ∧
        (∀ p r, r ∈ t.reqs.requests p → r ∉ t.reqs.cancelled p) ∧
        ∀ p r, r ∈ t.reqs.requests p ∨ r ∈ t.reqs.cancelled p → 1 ≤ t.reqs.validReceiveChunks p r)
      (run step (init cfg storage) events) := by
  have hC : Meets step (fun _ _ => True) (init cfg storage) events :=
    Meets.of_forall (fun _ _ => trivial) events
  refine (owned_aboutPeers.keeps.run (owned_init cfg storage) hC).mono (fun e he => ?_)
    fun t ⟨h, _⟩ => ⟨h.owner, h.disjoint, h.expected⟩
  intro hmem
  simp only [mem_cons, not_mem_nil, or_false] at hmem
  rcases hmem with rfl | rfl | rfl | rfl | rfl | rfl | rfl | rfl | rfl | rfl <;> exact he rfl

/-- **Webseed requests.** Whatever happens to a torrent, in any order: an HTTP request that is under
way is one of a webseed, is listed as active and only once, and is for a chunk that is requested
from that webseed or was cancelled there; and whatever is requested or was cancelled is a chunk of
the torrent. -/
theorem webseed_requests_owned (cfg : Config) (storage : Storage) (events : List Event) :
    Gives (fun t => t.reqs.running.Nodup ∧
        (∀ x ∈ t.reqs.running, t.isConn x.1 = false ∧ x ∈ t.reqs.active ∧
          ∃ r, t.requestIndexToRequest r = x.2 ∧
            (r ∈ t.reqs.requests x.1 ∨ r ∈ t.reqs.cancelled x.1)) ∧
        ∀ p r, r ∈ t.reqs.requests p ∨ r ∈ t.reqs.cancelled p → t.ValidIndex r)
      (run step (init cfg storage) events) := by
  have hC : Meets step (fun _ _ => True) (init cfg storage) events :=
    Meets.of_forall (fun _ _ => trivial) events
  refine (owned_aboutPeers.keeps.run (owned_init cfg storage) hC).mono (fun _ _ => trivial)
    fun t h => ⟨h.1.nodup, fun x hx => ?_, h.1.valid⟩
  obtain ⟨-, hweb, hrequest⟩ := h.1.running x hx
  exact ⟨hweb, h.1.active x hx, hrequest⟩

end ReliableBT
