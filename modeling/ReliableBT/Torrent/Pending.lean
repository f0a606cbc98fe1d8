import ReliableBT.Torrent.Coherence

/-!
# The wanted pieces (`updatePiecePriority`, `uncachedPriority`)

`_pendingPieces` caches which pieces have a priority: `updatePiecePriority` compares the cache with
`uncachedPriority` and brings the one piece in line. What `uncachedPriority` looks at is all over
the torrent: readers, files and the piece itself give a priority, and a piece that is complete,
queued for hashing, being hashed or being marked has none.

`Wanted S` is the invariant, up to the stale pieces `S`: every other piece is in `_pendingPieces` if
and only if it has a priority. It says what is pending before the info is known, too: nothing, and
readers are nowhere, so that nothing has a priority when the info becomes known and `onSetInfo` can
leave alone a piece whose completion is what it was.

* `pending_coherent`: the cache is right in every run in which no file of a torrent without piece
  length is given a priority.
* `pending_stale`: `File.SetPriority` updates the pieces from `beginPieceIndex` to `endPieceIndex`,
  which are none if there is no piece length. The piece then has a priority and is not pending.
-/

open Function List Nat Set

namespace ReliableBT

open Torrent

variable {t t' : Torrent} {info : Info} {S S' : Set ℕ} {i j : Nat}

theorem uncachedPriority_congr (hhashing : t'.hash.hashing j = t.hash.hashing j)
    (hmarking : t'.hash.marking j = t.hash.marking j)
    (hcomplete : j ∈ t'.comp.completed ↔ j ∈ t.comp.completed)
    (hqueued : j ∈ t'.hash.queued ↔ j ∈ t.hash.queued)
    (hprio : t'.purePriority j = t.purePriority j) :
    t'.uncachedPriority j = t.uncachedPriority j := by
  have hdone : t'.pieceComplete j = t.pieceComplete j := decide_eq_decide.mpr hcomplete
  unfold uncachedPriority
  rw [hhashing, hmarking, hdone, hprio, decide_eq_decide.mpr hqueued]

/-- The pieces that are not stale are pending if and only if they have a priority, while the torrent
is open. -/
def Wanted (S : Set ℕ) (t : Torrent) : Prop :=
  t.closed = false → ReadersRight t.prio ∧
    (t.info = none → (∀ i, i ∉ t.pendingPieces) ∧ ∀ r ∈ t.prio.readers, r.2 = (0, 0)) ∧
    ∀ i < t.numPieces, i ∉ S → (i ∈ t.pendingPieces ↔ t.uncachedPriority i ≠ .none)

/-- No file of a torrent without piece length is given a priority. -/
def KeepsPending (t : Torrent) (e : Event) : Prop :=
  match e with
  | .setFilePriority _ _ => ∀ info ∈ t.info, info.pieceLength ≠ 0
  | _ => True

instance (t : Torrent) (e : Event) : Decidable (KeepsPending t e) := by
  apply Event.casesOn (motive := fun e => Decidable (KeepsPending t e)) e <;> intros <;>
    dsimp only [KeepsPending] <;> infer_instance

namespace Wanted

/-! ## One change at a time -/

theorem change (h : Wanted S t) (hsub : S ⊆ S') (prio : Prio)
    (hreaders : ReadersRight t.prio → ReadersRight prio)
    (hranges : t.info = none → (∀ r ∈ t.prio.readers, r.2 = (0, 0)) →
      ∀ r ∈ prio.readers, r.2 = (0, 0))
    (hkeep : ∀ j < t.numPieces, j ∉ S' →
      { t with prio := prio }.purePriority j = t.purePriority j) :
    Wanted S' { t with prio := prio } := by
  intro hopen
  obtain ⟨hright, hnone, hpending⟩ := h hopen
  refine ⟨hreaders hright, fun hinfo => ?_, fun j hj hfresh => ?_⟩
  · exact ⟨(hnone hinfo).1, hranges hinfo (hnone hinfo).2⟩
  · have hsame : { t with prio := prio }.uncachedPriority j = t.uncachedPriority j :=
      uncachedPriority_congr rfl rfl Iff.rfl Iff.rfl (hkeep j hj hfresh)
    rw [hsame]
    exact hpending j hj fun hmem => hfresh (hsub hmem)

theorem flags (h : Wanted S t) (hsub : S ⊆ S') (comp : Comp) (hash : Hashing)
    (hkeep : ∀ j, j ∉ S' →
      { t with comp := comp, hash := hash }.uncachedPriority j = t.uncachedPriority j) :
    Wanted S' { t with comp := comp, hash := hash } := by
  intro hopen
  obtain ⟨hright, hnone, hpending⟩ := h hopen
  refine ⟨hright, hnone, fun j hj hfresh => ?_⟩
  rw [hkeep j hfresh]
  exact hpending j hj fun hmem => hfresh (hsub hmem)

theorem mono (h : Wanted S t) (hsub : S ⊆ S') : Wanted S' t :=
  h.flags hsub t.comp t.hash fun _ _ => rfl

theorem of_closed (h : t.closed = true) : Wanted S t := fun hopen => by
  rw [h] at hopen
  cases hopen

theorem settle (h : Wanted (insert i S) t) (hi : i < t.numPieces) (b : Bitmap)
    (hsame : ∀ j ≠ i, j ∈ b ↔ j ∈ t.pendingPieces)
    (hright : i ∈ b ↔ t.uncachedPriority i ≠ .none) : Wanted S { t with pendingPieces := b } := by
  intro hopen
  obtain ⟨hreaders, hnone, hpending⟩ := h hopen
  refine ⟨hreaders, fun hinfo => ?_, fun j hj hfresh => ?_⟩
  · have hinfo' : t.info = none := hinfo
    simp [numPieces, hinfo'] at hi
  · by_cases hji : j = i
    · subst hji
      exact hright
    · exact (hsame j hji).trans (hpending j hj fun hmem => hmem.elim hji hfresh)

end Wanted

theorem wanted_peersFree (S : Set ℕ) : PeersFree (fun _ => True) (Wanted S) where
  ctl h _ _ := h
  buf h _ _ := h
  up h _ _ := h
  panic _ _ := trivial
  reqs h _ := h
  availPanic _ _ := trivial
  relative h _ := h
  closed h _ := h
  pieces h _ := h
  sentHaveAll h _ := h
  withAll h _ _ := h
  order h _ := h
  conns h _ := h

namespace Wanted

theorem updatePending (h : Wanted (insert i S) t) (hi : i < t.numPieces)
    (reason : UpdateReason) : Wanted S (t.updatePending i reason) := by
  have haside := (wanted_peersFree S).toReqsFree.toAside
  have hremove : ∀ j ≠ i, j ∈ t.pendingPieces.remove i ↔ j ∈ t.pendingPieces := fun j hj => by
    rw [Bitmap.mem_remove]
    exact and_iff_left hj
  have hadd : ∀ j ≠ i, j ∈ t.pendingPieces.add i ↔ j ∈ t.pendingPieces := fun j hj => by
    rw [Bitmap.mem_add]
    exact or_iff_right hj
  unfold Torrent.updatePending
  split_ifs with hnone hmem hmem
  · exact haside.piecePriorityChanged (h.settle hi _ hremove (by simp [hnone])) i reason
  · exact h.settle hi t.pendingPieces (fun _ _ => Iff.rfl) (by simp [hnone, hmem])
  · exact h.settle hi t.pendingPieces (fun _ _ => Iff.rfl) (by simp [hnone, hmem])
  · exact haside.piecePriorityChanged (h.settle hi _ hadd (by simp [hnone])) i reason

theorem updatePiecePriority (h : Wanted (insert i S) t) (reason : UpdateReason) :
    Gives (Wanted S) (t.updatePiecePriority i reason) := by
  refine (Ends.doIf (fun _ => (wanted_peersFree _).updatePieceRequestOrder h i) fun _ => h).bind
    fun t₁ ht₁ => ?_
  exact Ends.require (fun hi => ht₁.updatePending hi reason) fun _ => trivial

theorem setCompletion (h : Wanted S t) (i : Nat) (c : Completion) :
    Wanted (insert i S) (t.setCompletion i c) := by
  refine h.flags (subset_insert i S) _ _ fun j hj => ?_
  have hne : j ≠ i := fun heq => hj (.inl heq)
  refine uncachedPriority_congr rfl rfl ?_ Iff.rfl rfl
  dsimp only
  split_ifs
  · simp [hne]
  · simp [hne]

end Wanted

theorem Wanted.flag (h : Wanted S t) (i : Nat) (hash : Hashing)
    (hhashing : ∀ j ≠ i, hash.hashing j = t.hash.hashing j)
    (hmarking : ∀ j ≠ i, hash.marking j = t.hash.marking j)
    (hqueued : ∀ j ≠ i, j ∈ hash.queued ↔ j ∈ t.hash.queued) :
    Wanted (insert i S) { t with hash := hash } := by
  refine h.flags (subset_insert i S) t.comp hash fun j hj => ?_
  have hne : j ≠ i := fun heq => hj (.inl heq)
  exact uncachedPriority_congr (hhashing j hne) (hmarking j hne) Iff.rfl (hqueued j hne) rfl

/-! ## Upkeep -/

theorem wanted_upkeep : Upkeep (fun _ => True) (fun _ => True) fun S _ => Wanted S where
  aside S _ := (wanted_peersFree S).toReqsFree.toAside
  index _ _ := trivial
  mono hsub h := h.mono hsub
  order _ h := (wanted_peersFree _).updatePieceRequestOrder h _
  update _ h reason := h.updatePiecePriority reason
  pendAll {S _ t i} _ _ h := by
    have hstale := h.mono (subset_insert i S)
    exact hstale
  complete _ _ h c := h.setCompletion _ c
  unchanged {_ _ t i} _ _ h := by
    obtain ⟨v, hv⟩ := setCompletion_self t i
    rw [hv]
    exact h
  cancelRequest h r := (wanted_peersFree _).unbooks.cancelRequest h r
  drop h _ _ := (wanted_peersFree _).safe.dropConnection h _

theorem wanted_queue : Queue (fun _ => True) (fun _ => True) fun S _ => Wanted S where
  toTending := wanted_upkeep.toTending
  updatePieceCompletion {S d _ _} hi h :=
    wanted_upkeep.updatePieceCompletion (S := S) (d := d) hi h
  queued _ _ := trivial
  queue {_ _ t i} _ _ h := by
    refine h.flag i _ (fun _ _ => rfl) (fun _ _ => rfl) fun j hj => ?_
    exact Bitmap.mem_add.trans (or_iff_right hj)
  begin {_ _ t i} h _ := by
    refine h.flag i _ (fun j hj => update_of_ne hj _ _) (fun _ _ => rfl) fun j hj => ?_
    exact Bitmap.mem_remove.trans (and_iff_left hj)
  spawn _ _ _ h := h

theorem wanted_priorities : Priorities (fun _ => True) KeepsPending Wanted where
  index _ _ := trivial
  mono hsub h := h.mono hsub
  update h reason := h.updatePiecePriority reason
  piece {t} h i prio := by
    refine h.change (empty_subset _) _ id (fun _ hr => hr) fun j _ hj => ?_
    exact purePriority_piece (fun heq => hj (.inl heq)) prio
  file {t info k prio} h hinfo hC := by
    refine h.change (empty_subset _) _ id (fun _ hr => hr) fun j hlt hj => ?_
    have hlt' : j < info.numPieces := by simpa [numPieces, hinfo] using hlt
    exact purePriority_file hinfo (hC info hinfo) hlt' hj prio
  readers {t id new} h hrange := by
    by_cases hclosed : t.closed = true
    · exact .of_closed hclosed
    obtain ⟨hright, -⟩ := h (by simpa using hclosed)
    refine h.change (empty_subset _) _
      (fun _ => .updated t.prio (nodup_moved hright.2.2 id new)) (fun hinfo hr r hmem => ?_)
      fun j _ hj => purePriority_readers hright hj
    rcases mem_cons.mp hmem with rfl | hmem
    · exact hrange.of_none hinfo
    · exact hr r (mem_filter.mp hmem).1
  sameReaders {t id} h hrange := by
    refine h.change (empty_subset _) _ (fun hright => hright.moved rfl)
      (fun hinfo hr r hmem => ?_) fun _ _ _ => rfl
    rcases mem_cons.mp hmem with rfl | hmem
    · exact hrange.of_none hinfo
    · exact hr r (mem_filter.mp hmem).1
  fewerReaders {t} h id := by
    refine h.change (empty_subset _) _ (fun hright => ?_)
      (fun _ hr r hmem => hr r (mem_filter.mp hmem).1) fun j hlt hj => ?_
    · exact .updated t.prio ((filter_sublist.map Prod.fst).nodup hright.2.2)
    · exact absurd ⟨zero_le j, hlt⟩ hj

/-! ## The info -/

theorem Wanted.setInfo (h : Wanted ∅ t) (hinfo : t.info = none) (info : Info) :
    Gives (Wanted ∅) (t.setInfo info) := by
  unfold Torrent.setInfo
  split_ifs
  · trivial
  · intro hopen
    obtain ⟨hright, hnone, -⟩ := h hopen
    obtain ⟨hpending, hranges⟩ := hnone hinfo
    refine ⟨hright, fun hno => (nomatch hno), fun i _ _ => ?_⟩
    have hnow : i ∉ t.prio.now := by
      rw [hright.1, mem_now]
      rintro ⟨r, hr, hlt, -⟩
      rw [hranges r hr] at hlt
      exact lt_irrefl 0 hlt
    have hahead : i ∉ t.prio.readahead := by
      rw [hright.2.1, mem_readahead]
      rintro ⟨r, hr, -, hlt⟩
      rw [hranges r hr] at hlt
      exact not_lt_zero i hlt
    refine iff_of_false (hpending i) fun hprio => hprio ?_
    unfold uncachedPriority
    split_ifs
    · rfl
    · exact purePriority_none (fun _ => rfl) hnow hahead rfl

/-! ## Whole runs -/

theorem wanted_writesFree : WritesFree (fun _ => True) (Wanted ∅) where
  toAside := (wanted_peersFree ∅).toReqsFree.toAside
  indexPanic _ _ := trivial
  storePanic _ _ := trivial
  entry h _ := (wanted_peersFree ∅).updatePieceRequestOrder h _
  writes h _ _ _ := h

theorem Wanted.toMarking (h : Wanted ∅ t) (hmarked : t.hash.hashing i = true)
    (hashers : List Hasher) : Wanted ∅ { t with
      hash.hashing := update t.hash.hashing i false
      hash.marking := update t.hash.marking i true
      hash.hashers := hashers } := by
  refine h.flags (Set.Subset.refl _) t.comp _ fun j _ => ?_
  by_cases hji : j = i
  · subst hji
    simp [uncachedPriority, hmarked]
  · exact uncachedPriority_congr (update_of_ne hji _ _) (update_of_ne hji _ _) Iff.rfl Iff.rfl rfl

theorem wanted_hashersFree (S : Set ℕ) : HashersFree (Wanted S) :=
  ⟨fun h _ => h, fun h _ => h, fun h _ => h⟩

theorem wanted_keeps : Keeps (fun _ => True) KeepsPending fun S _ => Wanted S := by
  have hp := wanted_peersFree ∅
  have hstop : ∀ {t : Torrent}, Wanted ∅ t → Wanted ∅ { t with closed := true } :=
    fun _ => .of_closed rfl
  have hwrites := wanted_writesFree.keepsWrites (C := KeepsPending) hp.toReqsFree
    (fun _ _ => trivial) fun h i => wanted_queue.queuePieceCheck (d := none) (i := i) trivial h
  refine KeepsPieces.keeps { wanted_queue, hwrites with
    gotInfo := fun h _ hinfo _ =>
      hp.gotInfo (I := fun S _ => Wanted S) wanted_queue h (h.setInfo hinfo _)
    addPeerConn := fun h _ => hp.peerConnAdded h
    addWebSeed := fun h _ => hp.toAvailFree.addWebSeed h
    hashPiece := fun h => (wanted_hashersFree _).hashPiece h _ _
    hashed := fun {t k i bytes} h _ => h.flag i _ (fun _ hj => update_of_ne hj _ _)
      (fun _ _ => rfl) fun _ _ => Iff.rfl
    toMarking := fun h _ hmarked => h.toMarking hmarked _
    marking := fun h i _ => h.flag i _ (fun _ _ => rfl)
      (fun _ hj => update_of_ne hj _ _) fun _ _ => Iff.rfl
    markedComplete := fun h => (wanted_hashersFree _).markedComplete h _ _
    verified := fun h _ => (wanted_hashersFree _).setVerified h _ _
    done := fun h _ => h
    unspawn := fun h => h
    storageCompletion := fun h _ => h
    prio := wanted_priorities
    reorder := fun h _ => h
    closeTorrent := fun h _ => hp.toAvailFree.closeTorrent hstop hp.safe.close h }
    fun S _ => (wanted_peersFree S).safe

theorem wanted_init (cfg : Config) (storage : Storage) : Wanted ∅ (.init cfg storage) :=
  fun _ => ⟨⟨rfl, rfl, nodup_nil⟩, fun _ => ⟨Bitmap.not_mem_empty, fun _ hr => nomatch hr⟩,
    fun i hi => absurd hi (not_lt_zero i)⟩

/-- **The wanted pieces are pending** in every run in which no file of a torrent without piece
length is given a priority: a piece is in `_pendingPieces` if and only if `uncachedPriority` gives
it a priority. -/
theorem pending_coherent (cfg : Config) (storage : Storage) (events : List Event)
    (hC : Meets step KeepsPending (init cfg storage) events) :
    Gives (fun t => t.closed = false → t.haveInfo = true → ∀ i < t.numPieces,
        (i ∈ t.pendingPieces ↔ t.uncachedPriority i ≠ .none))
      (run step (init cfg storage) events) :=
  (wanted_keeps.run (wanted_init cfg storage) hC).imp fun _ ⟨h, _⟩ hopen _ i hi =>
    (h hopen).2.2 i hi (notMem_empty i)

/-- **A wanted piece is not pending** when a file gets a priority in a torrent without piece
length. -/
theorem pending_stale :
    Reaches (fun t => t.closed = false ∧ t.haveInfo = true ∧ 0 < t.numPieces ∧
        0 ∉ t.pendingPieces ∧ t.uncachedPriority 0 = .normal)
      (run step (init smallConfig emptyStorage)
        [.setInfo emptyInfo, .setFilePriority 0 .normal]) := by
  decide

/-- A file gets a priority, and its piece is queued and hashed. -/
def verify : List Event :=
  [.setInfo smallInfo, .setFilePriority 0 .normal, .readerMoved 1 0 1, .verifyData 0,
    .hashPiece 0 0, .hashPiece 0 8, .pieceHasher 0 [] [] true]

theorem verify_pending :
    Reaches (fun t => t.closed = false ∧ t.haveInfo = true ∧ t.numPieces = 1 ∧
        0 ∉ t.pendingPieces)
      (run step (init smallConfig emptyStorage) verify) ∧
    Gives (fun t => t.closed = false → t.haveInfo = true → ∀ i < t.numPieces,
        (i ∈ t.pendingPieces ↔ t.uncachedPriority i ≠ .none))
      (run step (init smallConfig emptyStorage) verify) :=
  ⟨by decide, pending_coherent smallConfig emptyStorage verify (by decide)⟩

end ReliableBT
