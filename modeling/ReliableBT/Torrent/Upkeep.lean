import ReliableBT.Torrent.Frames

/-!
# Upkeep of pieces: one traversal for every invariant

`updatePiecePriority`, `updatePieceCompletion` and `queuePieceCheck` run in the middle of almost
everything that happens to a torrent, and between them they reach most of its tables.
`Tending E P I`, `Upkeep E P I` and `Queue E P I` list what an invariant `I` has to withstand, one
primitive at a time; the theorems follow the source through the functions once and for all.

The invariant has two parameters that say what is out of date at the moment. `S : Set ℕ` are the
*stale* pieces: those whose entry in the piece request order, or whose membership of
`_pendingPieces`, may be wrong. Pending the chunks of a piece, setting its completion or one of its
flags makes it stale; `updatePiecePriority` makes it fresh again. `d : Option ℕ` is the hasher that
is done but still listed. `Plain E P J` is for invariants that look at none of this. `P` is the
pieces whose completion may change; outside of `onSetInfo` that is all of them.

`Priorities E C I` does the same for what the application does to priorities and readers.
-/

namespace ReliableBT

open Torrent List Bitmap Function Set

variable {E : Panic → Prop} {P : Nat → Prop} {I : Set ℕ → Option ℕ → Torrent → Prop} {S : Set ℕ}
  {d : Option ℕ} {t : Torrent} {i : Nat}

/-- What an invariant withstands, so that what follows a change of completion keeps it. -/
structure Tending (E : Panic → Prop) (P : Nat → Prop) (I : Set ℕ → Option ℕ → Torrent → Prop) :
    Prop where
  aside : ∀ S d, Aside (I S d)
  index : ∀ e : Panic, e.group = .index → E e := by intros; trivial
  mono : ∀ {S S' d t}, S ⊆ S' → I S d t → I S' d t
  order : ∀ {S d t i}, P i → I S d t → Ends E (I S d) (t.updatePieceRequestOrder i)
  update : ∀ {S d t i}, P i → I (insert i S) d t → ∀ reason,
    Ends E (I S d) (t.updatePiecePriority i reason)
  pendAll : ∀ {S d t i}, P i → i < t.numPieces → I S d t →
    I (insert i S) d (t.pendAllChunkSpecs i)
  cancelRequest : ∀ {S d t}, I S d t → ∀ r, Ends E (I S d) (t.cancelRequest r)
  drop : ∀ {S d t p}, I S d t → p ∈ t.avail.conns → t.haveAllPieces = true →
    Ends E (I S d) (t.dropConnection p)

/-- What an invariant withstands, so that the upkeep of completion keeps it. -/
structure Upkeep (E : Panic → Prop) (P : Nat → Prop) (I : Set ℕ → Option ℕ → Torrent → Prop) :
    Prop extends Tending E P I where
  complete : ∀ {S d t i}, P i → i < t.numPieces → I S d t → ∀ c,
    I (insert i S) d (t.setCompletion i c)
  unchanged : ∀ {S d t i}, P i → i < t.numPieces → I S d t →
    I S d (t.setCompletion i (t.completion i))

/-- What an invariant withstands, so that the upkeep of the hash queue keeps it. A change of
completion it withstands as a whole: it may be broken in the middle of it. -/
structure Queue (E : Panic → Prop) (P : Nat → Prop) (I : Set ℕ → Option ℕ → Torrent → Prop) :
    Prop extends Tending E P I where
  updatePieceCompletion : ∀ {S d t i}, P i → I S d t → Ends E (I S d) (t.updatePieceCompletion i)
  queued : ∀ {S d t i}, I S d t → i ∈ t.hash.queued → P i := by intros; trivial
  queue : ∀ {S d t i}, P i → i < t.numPieces → I S d t →
    I (insert i S) d { t with hash.queued := t.hash.queued.add i }
  begin : ∀ {S d t i}, I S d t → i ∈ t.hash.queued → I (insert i S) d (t.beginHashing i)
  spawn : ∀ {S d t₀ t i}, I S d t₀ → t₀.hash.hashing i = false →
    t.hash = (t₀.beginHashing i).hash → I S d t → I S d (t.spawnHasher i)

theorem updatePieceRequestOrder_numPieces (t : Torrent) (j : Nat) (hi : i < t.numPieces) :
    Gives (fun t' => i < t'.numPieces) (t.updatePieceRequestOrder j) := by
  unfold updatePieceRequestOrder
  split_ifs
  · exact hi
  · trivial
  · trivial
  · exact hi

theorem setCompletion_self (t : Torrent) (i : Nat) :
    ∃ v, t.setCompletion i (t.completion i) = { t with hash.verified := v } := by
  refine ⟨(t.setCompletion i (t.completion i)).hash.verified, ?_⟩
  have hcompleted : (if t.pieceComplete i then t.comp.completed.add i
      else t.comp.completed.remove i) = t.comp.completed := by
    ext j
    by_cases hi : i ∈ t.comp.completed
    · simp only [pieceComplete, hi, decide_true, if_true, mem_add]
      exact or_iff_right_of_imp fun heq => heq ▸ hi
    · simp only [pieceComplete, hi, decide_false, Bool.false_eq_true, if_false, mem_remove]
      exact and_iff_left_of_imp fun hj heq => hi (heq ▸ hj)
  unfold setCompletion completion
  dsimp only
  rw [update_eq_self, hcompleted]

theorem updatePiecePriority_hash (t : Torrent) (i : Nat) (reason : UpdateReason) :
    Gives (fun t' => t'.hash = t.hash) (t.updatePiecePriority i reason) := by
  have hfree : PendingFree fun t' => t'.hash = t.hash :=
    ⟨⟨fun h _ _ => h, fun h _ _ => h, fun h _ _ => h⟩, fun h _ => h⟩
  refine hfree.updatePiecePriority trivial (fun _ => rfl) (fun _ => ?_) reason
  unfold updatePieceRequestOrder
  split_ifs <;> trivial

namespace Tending

section

variable (h : Tending E P I)
include h

theorem stale (ht : I S d t) (i : Nat) : I (insert i S) d t :=
  h.mono (subset_insert i S) ht

/-! ## Completion -/

theorem cancelRequestsForPiece (ht : I S d t) (i : Nat) :
    Ends E (I S d) (t.cancelRequestsForPiece i) :=
  Ends.foldlM ht fun _ ht' r _ => h.cancelRequest ht' r

theorem pieceCompletedFor (ht : I S d t) (i p : Nat) :
    Ends E (I S d) (pieceCompletedFor i t p) := by
  unfold Torrent.pieceCompletedFor
  split_ifs with hp
  · have hconns : p ∈ (t.have_ p i).avail.conns := by
      unfold have_
      split_ifs
      · exact hp
      · exact hp
    refine ends_maybeDrop p ((h.aside S d).have_ ht p i) fun hall _ => ?_
    exact h.drop ((h.aside S d).have_ ht p i) hconns hall
  · exact ht

theorem onPieceCompleted (hP : P i) (hi : i < t.numPieces) (ht : I S d t) :
    Ends E (I (insert i S) d) (t.onPieceCompleted i) :=
  (h.cancelRequestsForPiece (h.pendAll hP hi ht) i).bind fun _ ht₁ =>
    Ends.foldlM ht₁ fun _ ht' p _ => h.pieceCompletedFor ht' i p

theorem onIncompletePiece (hP : P i) (hi : i < t.numPieces) (ht : I S d t) :
    I (insert i S) d (t.onIncompletePiece i) := by
  have hpend : I (insert i S) d (if t.pieceAllDirty i then t.pendAllChunkSpecs i else t) := by
    split_ifs
    · exact h.pendAll hP hi ht
    · exact h.stale ht i
  unfold Torrent.onIncompletePiece
  dsimp only
  revert hpend
  generalize (if t.pieceAllDirty i then t.pendAllChunkSpecs i else t) = t₁
  intro hpend
  split_ifs
  · exact hpend
  · exact (h.aside _ d).notifyIncomplete hpend i _

theorem pieceCompletionChanged (hP : P i) (hi : i < t.numPieces)
    (ht : I (insert i S) d t) (reason : UpdateReason) :
    Ends E (I S d) (t.pieceCompletionChanged i reason) := by
  have hdone := h.onPieceCompleted hP hi ht
  have hback := h.onIncompletePiece hP hi ht
  rw [insert_idem] at hdone hback
  exact (Ends.doIf (fun _ => hdone) fun _ => hback).bind fun t₁ ht₁ => h.update hP ht₁ reason

end

end Tending

theorem Upkeep.updatePieceCompletion (h : Upkeep E P I) (hP : P i) (ht : I S d t) :
    Ends E (I S d) (t.updatePieceCompletion i) := by
  refine Ends.require (fun hi => ?_) fun _ => h.index _ rfl
  have hi₁ : i < (t.setCompletion i (t.pieceCompleteUncached i)).numPieces := hi
  by_cases hsame : t.completion i = t.pieceCompleteUncached i
  · have hset := h.unchanged hP hi ht
    rw [hsame] at hset
    refine (h.order hP hset).bind fun t₁ ht₁ => ?_
    exact Ends.doIf (fun hchanged => absurd hsame (by simpa using hchanged)) fun _ => ht₁
  · have hset := h.complete hP hi ht (t.pieceCompleteUncached i)
    refine ((h.order hP hset).and (updatePieceRequestOrder_numPieces _ i hi₁)).bind fun t₁ ht₁ => ?_
    exact Ends.doIf (fun _ => h.pieceCompletionChanged hP ht₁.2 ht₁.1 _)
      fun hno => absurd (by simpa using hsame) hno

/-! ## The hash queue -/

namespace Queue

theorem tryCreatePieceHasher (h : Queue E P I) (ht : I S d t) :
    Ends E (fun x => I S d x.1) t.tryCreatePieceHasher := by
  unfold Torrent.tryCreatePieceHasher
  split_ifs
  · exact ht
  · split
    · exact ht
    · rename_i i hfind
      have hmem : i ∈ t.hash.queued := mem_of_find?_eq_some hfind
      have hidle : t.hash.hashing i = false := by simpa using find?_some hfind
      refine ((h.update (h.queued ht hmem) (h.begin ht hmem) _).and
        (updatePiecePriority_hash _ i _)).bind fun t₂ ⟨ht₂, hhash⟩ => ?_
      exact h.spawn ht hidle hhash ht₂

theorem createPieceHashers (h : Queue E P I) (n : Nat) (ht : I S d t) :
    Ends E (I S d) (createPieceHashers n t) := by
  induction n generalizing t with
  | zero => exact ht
  | succ n ih =>
    unfold createPieceHashers
    split_ifs
    · exact ht
    · refine (h.tryCreatePieceHasher ht).bind fun ⟨t₁, created⟩ ht₁ => ?_
      cases created with
      | true => exact ih ht₁
      | false => exact ht₁

theorem tryCreateMorePieceHashers (h : Queue E P I) (ht : I S d t) :
    Ends E (I S d) t.tryCreateMorePieceHashers := h.createPieceHashers 2 ht

theorem queuePieceCheck (h : Queue E P I) (hP : P i) (ht : I S d t) :
    Ends E (I S d) (t.queuePieceCheck i) := by
  refine Ends.require (fun hi => ?_) fun _ => h.index _ rfl
  split_ifs
  · exact ht
  · refine (h.update hP (h.queue hP hi ht) _).bind fun t₁ ht₁ => ?_
    exact h.tryCreateMorePieceHashers ht₁

end Queue

/-! ## Invariants that do not look at what is out of date -/

/-- What an invariant withstands that looks neither at `_pendingPieces` nor, but for the queue, at
the flags of pieces. -/
structure Plain (E : Panic → Prop) (P : Nat → Prop) (J : Torrent → Prop) : Prop
    extends PendingFree J where
  index : ∀ e : Panic, e.group = .index → E e := by intros; trivial
  order : ∀ {t i}, P i → J t → Ends E J (t.updatePieceRequestOrder i)
  pendAll : ∀ {t i}, P i → i < t.numPieces → J t → J (t.pendAllChunkSpecs i)
  complete : ∀ {t i}, P i → i < t.numPieces → J t → ∀ c, J (t.setCompletion i c)
  cancelRequest : ∀ {t}, J t → ∀ r, Ends E J (t.cancelRequest r)
  drop : ∀ {t p}, J t → p ∈ t.avail.conns → t.haveAllPieces = true →
    Ends E J (t.dropConnection p)
  queued : ∀ {t i}, J t → i ∈ t.hash.queued → P i := by intros; trivial
  flags : ∀ {t : Torrent}, J t → ∀ q b m n, (∀ i ∈ q, i ∈ t.hash.queued ∨ P i) → J { t with
    hash.queued := q, hash.hashing := b, hash.marking := m, hash.activePieceHashes := n }
  spawn : ∀ {t : Torrent}, J t → ∀ i,
    J { t with hash.hashers := t.hash.hashers ++ [⟨i, .waiting⟩] } := by intros; assumption

namespace Plain

variable {J : Torrent → Prop}

section

variable (h : Plain E P J)
include h

theorem update (hP : P i) (ht : J t) (reason : UpdateReason) :
    Ends E J (t.updatePiecePriority i reason) :=
  h.toPendingFree.updatePiecePriority (h.index _ rfl) (fun _ => ht) (fun _ => h.order hP ht) reason

theorem setFlags (ht : J t) (b m : Nat → Bool) (n : Nat) : J { t with
    hash.hashing := b, hash.marking := m, hash.activePieceHashes := n } :=
  h.flags ht t.hash.queued b m n fun _ => .inl

theorem toUpkeep : Upkeep E P fun _ _ => J where
  aside _ _ := h.toAside
  index := h.index
  mono _ ht := ht
  order := h.order
  update := h.update
  pendAll := h.pendAll
  complete := h.complete
  unchanged hP hi ht := h.complete hP hi ht _
  cancelRequest := h.cancelRequest
  drop := h.drop

theorem toQueue : Queue E P fun _ _ => J where
  toTending := h.toUpkeep.toTending
  updatePieceCompletion hP ht := h.toUpkeep.updatePieceCompletion (S := ∅) (d := none) hP ht
  queued := h.queued
  queue {_ _ t i} hP _ ht := by
    refine h.flags ht _ _ _ _ fun j hj => ?_
    rcases mem_add.mp hj with rfl | hj
    · exact .inr hP
    · exact .inl hj
  begin ht _ := h.flags ht _ _ _ _ fun _ hj => .inl (mem_remove.mp hj).1
  spawn _ _ _ ht := h.setFlags (h.spawn ht _) _ _ _

theorem updatePieceCompletion (hP : P i) (ht : J t) : Ends E J (t.updatePieceCompletion i) :=
  h.toUpkeep.updatePieceCompletion (S := ∅) (d := none) hP ht

theorem tryCreateMorePieceHashers (ht : J t) : Ends E J t.tryCreateMorePieceHashers :=
  h.toQueue.tryCreateMorePieceHashers (S := ∅) (d := none) ht

theorem queuePieceCheck (hP : P i) (ht : J t) :
    Ends E J (t.queuePieceCheck i) := h.toQueue.queuePieceCheck (S := ∅) (d := none) hP ht

end

end Plain

theorem PeersFree.plain {J : Torrent → Prop} (h : PeersFree E J)
    (pending : ∀ {t : Torrent}, J t → ∀ b, J { t with pendingPieces := b })
    (pendAll : ∀ {t i}, i < t.numPieces → J t → J (t.pendAllChunkSpecs i))
    (complete : ∀ {t i}, i < t.numPieces → J t → ∀ c, J (t.setCompletion i c))
    (flags : ∀ {t : Torrent}, J t → ∀ q b m n, J { t with
      hash.queued := q, hash.hashing := b, hash.marking := m, hash.activePieceHashes := n })
    (spawn : ∀ {t : Torrent}, J t → ∀ i,
      J { t with hash.hashers := t.hash.hashers ++ [⟨i, .waiting⟩] }) :
    Plain E (fun _ => True) J where
  toAside := h.toReqsFree.toAside
  pending := pending
  index e he := h.panic e (.inr (.inr he))
  order _ ht := h.updatePieceRequestOrder ht _
  pendAll _ := pendAll
  complete _ := complete
  cancelRequest ht r := h.unbooks.cancelRequest ht r
  drop ht _ _ := h.safe.dropConnection ht _
  flags ht q b m n _ := flags ht q b m n
  spawn := spawn

/-! ## Priorities and readers -/

/-- The pieces of a reader are none, or some that the torrent has. -/
def Torrent.ValidRange (t : Torrent) (range : Nat × Nat) : Prop :=
  (range.1 = 0 ∧ range.2 = 0) ∨ (range.1 < range.2 ∧ range.2 ≤ t.numPieces)

theorem Torrent.ValidRange.of_none {range : Nat × Nat} (h : t.ValidRange range)
    (hinfo : t.info = none) : range = (0, 0) := by
  have hzero : t.numPieces = 0 := by simp [numPieces, hinfo]
  rcases h with h | h
  · exact Prod.ext h.1 h.2
  · omega

/-- What an invariant withstands, so that what the application does to priorities and readers keeps
it: each change makes the pieces stale that are brought up to date after it. -/
structure Priorities (E : Panic → Prop) (C : Torrent → Event → Prop)
    (I : Set ℕ → Torrent → Prop) : Prop where
  index : ∀ e : Panic, e.group = .index → E e := by intros; trivial
  mono : ∀ {S S' t}, S ⊆ S' → I S t → I S' t
  update : ∀ {S t i}, I (insert i S) t → ∀ reason, Ends E (I S) (t.updatePiecePriority i reason)
  piece : ∀ {t : Torrent}, I ∅ t → ∀ i prio,
    I (insert i ∅) { t with prio.piece := Function.update t.prio.piece i prio }
  file : ∀ {t : Torrent} {info k prio}, I ∅ t → t.info = some info →
    C t (.setFilePriority k prio) →
    I (Set.Ico (info.beginPieceIndex k) (info.endPieceIndex k))
      { t with prio.file := Function.update t.prio.file k prio }
  readers : ∀ {t : Torrent} {k new}, I ∅ t → t.ValidRange new →
    I (Set.Ico (t.readerPieces k).1 (t.readerPieces k).2 ∪ Set.Ico new.1 new.2)
      { t with prio.readers := (k, new) ::
          t.prio.readers.filter fun r => decide (r.1 ≠ k) }.updateReaderPieces
  sameReaders : ∀ {t : Torrent} {id}, I ∅ t → t.ValidRange (t.readerPieces id) →
    I ∅ { t with prio.readers := (id, t.readerPieces id) ::
      t.prio.readers.filter fun r => decide (r.1 ≠ id) }
  fewerReaders : ∀ {t : Torrent}, I ∅ t → ∀ id, I (Set.Ico 0 t.numPieces)
    { t with prio.readers :=
        t.prio.readers.filter fun r => decide (r.1 ≠ id) }.updateReaderPieces

namespace Priorities

variable {C : Torrent → Event → Prop} {I : Set ℕ → Torrent → Prop} {S' : Set ℕ}

section

variable (h : Priorities E C I)
include h

theorem updateEach (l : List Nat) (reason : UpdateReason) (ht : I S t) :
    Ends E (I (S \ {i | i ∈ l})) (l.foldlM (fun t i => t.updatePiecePriority i reason) t) := by
  induction l generalizing S t with
  | nil => simpa using ht
  | cons i l ih =>
    rw [foldlM_cons]
    have hstale := h.mono (subset_insert i S) ht
    rw [← insert_sdiff_singleton] at hstale
    refine (h.update hstale reason).bind fun t₁ ht₁ => ?_
    have hset : S \ {j | j ∈ i :: l} = (S \ {i}) \ {j | j ∈ l} := by
      ext j
      simp [and_assoc]
    rw [hset]
    exact ih ht₁

theorem updatePiecePriorities (ht : I S t) {start stop : Nat}
    (reason : UpdateReason) (hsub : S \ Set.Ico start stop ⊆ S') :
    Ends E (I S') (t.updatePiecePriorities start stop reason) := by
  have hset : Set.Ico start stop = {i | i ∈ range' start (stop - start)} := by
    ext i
    rw [mem_Ico, mem_ofPred_eq, mem_range'_1]
    omega
  rw [hset] at hsub
  exact (h.updateEach _ reason ht).imp fun _ ht' => h.mono hsub ht'

theorem setPriority (ht : I ∅ t) (i : Nat) (prio : PiecePriority) :
    Ends E (I ∅) (t.setPriority i prio) := h.update (h.piece ht i prio) _

theorem setFilePriority (ht : I ∅ t) {info : Info} {k : Nat}
    {prio : PiecePriority} (hinfo : t.info = some info) (hC : C t (.setFilePriority k prio)) :
    Ends E (I ∅) (t.setFilePriority info k prio) := by
  unfold Torrent.setFilePriority
  split_ifs
  · exact ht
  · refine h.updatePiecePriorities (h.file ht hinfo hC) _ ?_
    rw [sdiff_self]

theorem downloadPiece (ht : I ∅ t) (i : Nat) : Ends E (I ∅) (t.downloadPiece i) := by
  unfold Torrent.downloadPiece
  split_ifs
  · exact h.index _ rfl
  · exact ht
  · exact h.update (h.piece ht i _) _

theorem cancelPiece (ht : I ∅ t) (i : Nat) : Ends E (I ∅) (t.cancelPiece i) := by
  unfold Torrent.cancelPiece
  split_ifs
  · exact h.index _ rfl
  · exact ht
  · exact h.update (h.piece ht i _) _

theorem readerMoved (ht : I ∅ t) {id start stop : Nat}
    (hrange : t.ValidRange (start, stop)) : Ends E (I ∅) (t.readerMoved id start stop) := by
  have hreaders := h.readers (k := id) ht hrange
  unfold Torrent.readerMoved readerPosChanged
  dsimp only
  -- the ranges updated are the old and the new one, or one that has both in it
  split_ifs with hsame hlt hgap hgap
  · rw [← hsame] at hrange ⊢
    exact h.sameReaders ht hrange
  · refine (h.updatePiecePriorities hreaders _ (Set.Subset.refl _)).bind fun t₁ ht₁ => ?_
    refine h.updatePiecePriorities ht₁ _ ?_
    rintro i ⟨⟨hi, hnew⟩, hold⟩
    exact hi.elim hold hnew
  · refine h.updatePiecePriorities hreaders _ ?_
    rintro i ⟨hi, hout⟩
    simp only [Set.mem_union, Set.mem_Ico] at hi hout hlt
    omega
  · refine (h.updatePiecePriorities hreaders _ (Set.Subset.refl _)).bind fun t₁ ht₁ => ?_
    refine h.updatePiecePriorities ht₁ _ ?_
    rintro i ⟨⟨hi, hold⟩, hnew⟩
    exact hi.elim hold hnew
  · refine h.updatePiecePriorities hreaders _ ?_
    rintro i ⟨hi, hout⟩
    simp only [Set.mem_union, Set.mem_Ico] at hi hout hlt
    omega

theorem readerClosed (ht : I ∅ t) (id : Nat) : Ends E (I ∅) (t.readerClosed id) := by
  refine Ends.require (fun _ => ?_) fun _ => h.index _ rfl
  exact h.updatePiecePriorities (h.fewerReaders ht id) _ (sdiff_self).subset

end

end Priorities

theorem Priorities.ofFree {C : Torrent → Event → Prop} {J : Torrent → Prop}
    (index : ∀ e : Panic, e.group = .index → E e)
    (update : ∀ {t i}, J t → ∀ reason, Ends E J (t.updatePiecePriority i reason))
    (prio : ∀ {t : Torrent}, J t → ∀ p, J { t with prio := p }) :
    Priorities E C fun _ => J where
  index := index
  mono _ ht := ht
  update := update
  piece ht _ _ := prio ht _
  file ht _ _ := prio ht _
  readers ht _ := prio ht _
  sameReaders ht _ := prio ht _
  fewerReaders ht _ := prio ht _

/-! ## The info becomes known, and the torrent is closed -/

section Info

variable {J : Torrent → Prop}

theorem AvailSafe.webseedGotInfo (h : AvailSafe E J) (ht : J t) (p : Nat) (conforming : Bool) :
    Ends E J (t.webseedGotInfo p conforming) :=
  Ends.foldlM (h.pieces ht _) fun _ ht' i _ => h.incPieceAvailability ht' i

theorem AvailSafe.onSetInfoPeer (h : AvailSafe E J)
    (hdrop : ∀ {t : Torrent}, J t → ∀ p, Ends E J (t.maybeDropMutuallyCompletePeer p)) (ht : J t)
    (p : Nat) : Ends E J (t.onSetInfoPeer p) := by
  have hgot : Ends E J (t.onGotInfo p) := by
    unfold onGotInfo
    split
    · exact hdrop (h.pieces ht _) p
    · exact h.webseedGotInfo ht p _
  exact hgot.bind fun _ ht' => h.updateRequests ht' p (.inl nofun)

theorem Queue.onSetInfoPiece (h : Queue E P I) (hP : P i)
    (havail : t.avail.relative i ≠ 0 → E .availabilityBeforeInfo)
    (hadd : t.avail.relative i = 0 → Ends E (I S d) ({ t with
      avail.relative := update t.avail.relative i
        (t.selectivePieceAvailabilityFromPeers i) }.addRequestOrderPiece i)) :
    Ends E (I S d) (t.onSetInfoPiece i) := by
  refine Ends.require (fun hzero => ?_) havail
  refine (hadd hzero).bind fun t₁ ht₁ => ?_
  refine (h.updatePieceCompletion hP ht₁).bind fun t₂ ht₂ => ?_
  exact Ends.doIf (fun _ => h.queuePieceCheck hP ht₂) fun _ => ht₂

namespace AvailFree

theorem onSetInfoPiece (h : AvailFree E (I S d)) (hq : Queue E (fun _ => True) I) (ht : I S d t)
    (i : Nat) : Ends E (I S d) (t.onSetInfoPiece i) :=
  hq.onSetInfoPiece trivial (fun _ => h.availPanic _ (.inl rfl))
    fun _ => h.addRequestOrderPiece (h.relative ht _) i

theorem addWebSeed (h : AvailFree E J) {p : Nat} {conforming : Bool} {addr : Option (Nat × Nat)}
    (ht : J { t.newPeer p (.webseed conforming) addr 128 false with
      avail.webSeeds := p :: t.avail.webSeeds }) :
    Ends E J (t.addWebSeed p conforming addr) := by
  have h' : AvailFree E fun t' =>
      J { t' with avail.webSeeds := p :: t'.avail.webSeeds } :=
    { ctl := fun ht' c hc => h.ctl ht' c ⟨hc.need, hc.allowedFast⟩, buf := h.buf, up := h.up,
      availPanic := h.availPanic, relative := h.relative, closed := h.closed, pieces := h.pieces,
      sentHaveAll := h.sentHaveAll, withAll := h.withAll, order := h.order }
  have hgot : Ends E (fun t' => J { t' with avail.webSeeds := p :: t'.avail.webSeeds })
      (doIf t.haveInfo (t.newPeer p (.webseed conforming) addr 128 false)
        ((t.newPeer p (.webseed conforming) addr 128 false).webseedGotInfo p conforming)) :=
    Ends.doIf (fun _ => h'.safe.webseedGotInfo ht p conforming) fun _ => ht
  exact hgot.bind fun t₁ ht₁ => ht₁

theorem closeTorrent (h : AvailFree E J) (hstop : J t → J { t with closed := true })
    (hclose : ∀ {t : Torrent}, J t → ∀ p, Ends E J (t.close p)) (ht : J t) :
    Ends E J t.closeTorrent := by
  unfold Torrent.closeTorrent
  split_ifs
  · exact ht
  · refine (Ends.foldlM (hstop ht) fun _ ht' p _ => hclose ht' p).bind fun _ ht' => ?_
    exact h.assertAllPiecesRelativeAvailabilityZero (h.deletePieceRequestOrder ht')

end AvailFree

end Info

end ReliableBT
