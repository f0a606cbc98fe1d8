import ReliableBT.Torrent.Runs

/-!
# What connections are told about our pieces (`sendInitialMessages`, `have`, `onPieceCompleted`)

A connection learns which pieces we have from its first message about them, which is a `HaveAll`, a
`HaveNone` or a bitfield, and from a `Have` for every piece that is completed after that.
`sentHaves` keeps track. A completion is noticed in `updatePieceCompletion`, wherever that is called
from: `onSetInfo`, a hasher, a failed read, the application. The piece is complete before the
connections are told, so the invariant has a hole for that time: `Told X` says that every connection
has been told of every complete piece, but for those that `X` allows. The loop of
`onPieceCompleted` closes the hole, one connection after the other (`Told.haveLoop`).

* `AllTold.updatePieceCompletion`: a change of completion leaves no hole.
* `connections_told`: in every state of every run, each connection has been told of every complete
  piece, and `sentHaves` is what its messages say. The panic of `postBitfield` is not reached.
-/

open List Function ReliableBT.Bitmap

namespace ReliableBT

open Torrent

/-- The message says that we have piece `j`. -/
def Announcement.Names : Announcement → Nat → Prop
  | .bitfield bits, j => bits[j]? = some true
  | .haveAll numPieces, j => j < numPieces
  | .haveNone, _ => False
  | .have_ i, j => j = i

/-- All panics but the one of `postBitfield`. -/
def BitfieldFirst (e : Panic) : Prop := e ≠ .bitfieldNotFirst

theorem bitfieldFirst_of_group {e : Panic} (h : e.group ≠ .announce) : BitfieldFirst e :=
  fun he => h (by rw [he]; rfl)

/-- Connections have been told of the complete pieces, but for those that `X` allows, and what they
have been told is what is in their messages. -/
structure ToldOf (X : Nat → Nat → Prop) (conns peerIds : List Nat) (completed : Bitmap)
    (numPieces : Nat) (sentHaves : Nat → Bitmap) (announced : Nat → List Announcement) : Prop where
  known : ∀ p ∈ conns, p ∈ peerIds
  valid : ∀ j ∈ completed, j < numPieces
  told : ∀ p ∈ conns, ∀ j ∈ completed, X p j ∨ j ∈ sentHaves p
  names : ∀ p ∈ conns, ∀ j, j ∈ sentHaves p ↔ ∃ a ∈ announced p, a.Names j

/-- What connections have been told. -/
def Told (X : Nat → Nat → Prop) (t : Torrent) : Prop :=
  ToldOf X t.avail.conns t.avail.peerIds t.comp.completed t.numPieces t.buf.sentHaves
    t.buf.announced

/-- Nothing is held back. -/
def AllTold : Torrent → Prop := Told fun _ _ => False

variable {X X' : Nat → Nat → Prop} {t : Torrent} {i p : Nat}

theorem Told.refine (h : Told X t) (hX : ∀ p ∈ t.avail.conns, ∀ j ∈ t.comp.completed, X p j →
    X' p j ∨ j ∈ t.buf.sentHaves p) : Told X' t where
  known := h.known
  valid := h.valid
  told p hp j hj := (h.told p hp j hj).elim (hX p hp j hj) .inr
  names := h.names

/-! ## What is said -/

theorem names_bitfield (hvalid : ∀ j ∈ t.comp.completed, j < t.numPieces) (j : Nat) :
    t.bitfield[j]? = some true ↔ j ∈ t.comp.completed := by
  unfold bitfield
  rw [getElem?_map]
  by_cases hj : j < t.numPieces
  · simp [getElem?_range hj, pieceComplete]
  · simp [getElem?_eq_none (l := range t.numPieces) (by simpa using hj)]
    exact fun hmem => hj (hvalid j hmem)

/-- Nothing that has been said is taken back, and the messages say what is kept track of. -/
theorem Tells.names {all any : Bool} {numPieces : Nat} {completed haves haves' : Bitmap}
    {bits : List Bool} {log log' : List Announcement}
    (h : Tells all any numPieces completed bits haves log haves' log')
    (hbits : ∀ j, bits[j]? = some true ↔ j ∈ completed)
    (hnames : ∀ j, j ∈ haves ↔ ∃ a ∈ log, a.Names j) :
    (∀ j ∈ haves, j ∈ haves') ∧ ∀ j, j ∈ haves' ↔ ∃ a ∈ log', a.Names j := by
  cases h with
  | nothing => exact ⟨fun _ hj => hj, hnames⟩
  | @have_ _ _ i _ =>
    refine ⟨fun j hj => mem_add.mpr (.inr hj), fun j => ?_⟩
    simp [hnames j, Announcement.Names, or_and_right, exists_or, or_comm]
  | haveAll =>
    refine ⟨fun j hj => absurd hj (not_mem_empty j), fun j => ?_⟩
    simp [Announcement.Names]
  | haveNone => exact ⟨fun j hj => hj, fun j => by simp [Announcement.Names]⟩
  | bitfield =>
    refine ⟨fun j hj => absurd hj (not_mem_empty j), fun j => ?_⟩
    simp [Announcement.Names, hbits]

theorem told_peersFree (X : Nat → Nat → Prop) : PeersFree BitfieldFirst (Told X) where
  buf {t} h b hb := by
    have hsaid := fun p hp => (hb p).names (names_bitfield h.valid) (h.names p hp)
    exact { h with
      told := fun p hp j hj => (h.told p hp j hj).imp_right ((hsaid p hp).1 j)
      names := fun p hp => (hsaid p hp).2 }
  panic e he := bitfieldFirst_of_group (by rcases he with he | he | he <;> rw [he] <;> decide)
  availPanic e he := bitfieldFirst_of_group (by rcases he with he | he | he <;> rw [he] <;> decide)
  conns h _ := {
    known := fun p hp => h.known p (mem_of_mem_erase hp)
    valid := h.valid
    told := fun p hp => h.told p (mem_of_mem_erase hp)
    names := fun p hp => h.names p (mem_of_mem_erase hp) }

theorem told_pendingFree (X : Nat → Nat → Prop) : PendingFree (Told X) :=
  ⟨(told_peersFree X).toReqsFree.toAside, fun h _ => h⟩

theorem told_tending (X : Nat → Nat → Prop) :
    Tending BitfieldFirst (fun _ => True) fun _ _ => Told X where
  aside _ _ := (told_pendingFree X).toAside
  index e he := bitfieldFirst_of_group (by rw [he]; decide)
  mono _ h := h
  order _ h := (told_peersFree X).updatePieceRequestOrder h _
  update _ h reason := (told_pendingFree X).updatePiecePriority
    (bitfieldFirst_of_group (by decide)) (fun _ => h)
    (fun _ => (told_peersFree X).updatePieceRequestOrder h _) reason
  pendAll _ _ h := h
  cancelRequest h r := (told_peersFree X).unbooks.cancelRequest h r
  drop h _ _ := (told_peersFree X).safe.dropConnection h _

/-! ## A piece is completed -/

theorem mem_have_ (t : Torrent) (p i : Nat) : i ∈ (t.have_ p i).buf.sentHaves p := by
  unfold have_
  split_ifs with hi
  · exact hi
  · simp

theorem Told.haveLoop {l : List Nat} (h : Told (fun p j => j = i ∧ p ∈ l) t) :
    Ends BitfieldFirst AllTold (l.foldlM (pieceCompletedFor i) t) := by
  induction l generalizing t with
  | nil => exact h.refine fun p _ j _ hX => absurd hX.2 not_mem_nil
  | cons p l ih =>
    rw [foldlM_cons]
    refine Ends.bind (?_ : Ends _ (Told fun q j => j = i ∧ q ∈ l) _) fun _ ht => ih ht
    unfold pieceCompletedFor
    split_ifs with hp
    · have hsaid : Told (fun q j => j = i ∧ q ∈ l) (t.have_ p i) := by
        refine ((told_pendingFree _).have_ h p i).refine fun q _ j _ ⟨hj, hq⟩ => ?_
        rcases mem_cons.mp hq with rfl | hq
        · exact .inr (hj ▸ mem_have_ t q i)
        · exact .inl ⟨hj, hq⟩
      exact ends_maybeDrop p hsaid fun _ _ => (told_peersFree _).safe.dropConnection hsaid p
    · refine h.refine fun q hq j _ ⟨hj, hmem⟩ => .inl ⟨hj, ?_⟩
      exact (mem_cons.mp hmem).resolve_left fun heq => hp (heq ▸ hq)

theorem Told.onPieceCompleted (h : Told (fun _ j => j = i) t) :
    Ends BitfieldFirst AllTold (t.onPieceCompleted i) := by
  have hpend : Told (fun _ j => j = i) (t.pendAllChunkSpecs i) := h
  have hcancel := (told_tending _).cancelRequestsForPiece (S := ∅) (d := none) hpend i
  exact hcancel.bind fun _ ht => ht.refine (fun p hp j _ hj => .inl ⟨hj, hp⟩) |>.haveLoop

theorem Told.pieceCompletionChanged (h : Told (fun _ j => j = i) t) (hi : i < t.numPieces)
    (reason : UpdateReason) :
    Ends BitfieldFirst AllTold (t.pieceCompletionChanged i reason) := by
  have htend := told_tending fun _ _ => False
  refine (Ends.doIf (fun _ => h.onPieceCompleted) fun hnot => ?_).bind fun t₁ ht₁ =>
    htend.update (S := ∅) (d := none) trivial ht₁ reason
  -- the piece is not complete, so there is nothing to tell
  have hall : AllTold t := h.refine fun p _ j hj hX => by
    subst hX
    simp [pieceComplete, hj] at hnot
  exact htend.onIncompletePiece (S := ∅) (d := none) trivial hi hall

theorem AllTold.setCompletion (h : AllTold t) (hi : i < t.numPieces) (c : Completion) :
    Told (fun _ j => j = i) (t.setCompletion i c) := by
  have hcomplete : ∀ j ∈ (t.setCompletion i c).comp.completed, j = i ∨ j ∈ t.comp.completed := by
    intro j hj
    change j ∈ (if c.complete then _ else _) at hj
    split_ifs at hj
    · exact mem_add.mp hj
    · exact .inr (mem_remove.mp hj).1
  exact { h with
    valid := fun j hj => (hcomplete j hj).elim (fun heq => heq ▸ hi) (h.valid j)
    told := fun p hp j hj => (hcomplete j hj).imp_right fun hj' =>
      (h.told p hp j hj').resolve_left id }

/-- **Connections are told of a piece as soon as it is known to be complete.** -/
theorem AllTold.updatePieceCompletion (h : AllTold t) (i : Nat) :
    Ends BitfieldFirst AllTold (t.updatePieceCompletion i) := by
  refine Ends.require (fun hi => ?_) fun _ => bitfieldFirst_of_group (by decide)
  have hi₁ : i < (t.setCompletion i (t.pieceCompleteUncached i)).numPieces := hi
  by_cases hsame : t.completion i = t.pieceCompleteUncached i
  · have hset : AllTold (t.setCompletion i (t.pieceCompleteUncached i)) := by
      obtain ⟨v, hv⟩ := setCompletion_self t i
      rw [← hsame, hv]
      exact h
    refine ((told_peersFree _).updatePieceRequestOrder hset i).bind fun t₁ ht₁ => ?_
    exact Ends.doIf (fun hchanged => absurd hsame (by simpa using hchanged)) fun _ => ht₁
  · have hset := h.setCompletion hi (t.pieceCompleteUncached i)
    refine (((told_peersFree _).updatePieceRequestOrder hset i).and
      (updatePieceRequestOrder_numPieces _ i hi₁)).bind fun t₁ ht₁ => ?_
    exact Ends.doIf (fun _ => ht₁.1.pieceCompletionChanged ht₁.2 _)
      fun hno => absurd (by simpa using hsame) hno

theorem allTold_queue : Queue BitfieldFirst (fun _ => True) fun _ _ => AllTold where
  toTending := told_tending _
  updatePieceCompletion {_ _ _ i} _ h := h.updatePieceCompletion i
  queue _ _ h := h
  begin h _ := h
  spawn _ _ _ h := h

/-! ## New connections -/

theorem AllTold.newPeer (h : AllTold t) (hp : p ∉ t.avail.peerIds) (kind : PeerKind)
    (addr : Option (Nat × Nat)) (n : Int) (b : Bool) : AllTold (t.newPeer p kind addr n b) := by
  have hne : ∀ q ∈ t.avail.conns, q ≠ p := fun q hq heq => hp (heq ▸ h.known q hq)
  refine ⟨fun q hq => mem_cons_of_mem p (h.known q hq), h.valid, fun q hq j hj => ?_,
    fun q hq => ?_⟩
  · change _ ∨ j ∈ update t.buf.sentHaves p empty q
    rw [update_of_ne (hne q hq)]
    exact h.told q hq j hj
  · change ∀ j, j ∈ update t.buf.sentHaves p empty q ↔
      ∃ a ∈ update t.buf.announced p [] q, a.Names j
    rw [update_of_ne (hne q hq), update_of_ne (hne q hq)]
    exact h.names q hq

theorem AllTold.connJoined (h : AllTold t) (hp : p ∉ t.avail.peerIds) (fast transmission : Bool)
    (addr : Option (Nat × Nat)) :
    Told (fun q _ => q = p) (t.connJoined p fast transmission addr) := by
  have hold := h.newPeer hp (.conn fast transmission) addr 250 true
  have hnew := connJoined_untold t p fast transmission addr
  refine ⟨fun q hq => ?_, hold.valid, fun q hq j hj => ?_, fun q hq => ?_⟩
  · exact (mem_cons.mp hq).elim (fun heq => heq ▸ mem_cons_self) (hold.known q)
  · exact (mem_cons.mp hq).imp id fun hq => (hold.told q hq j hj).resolve_left id
  · rcases mem_cons.mp hq with rfl | hq
    · rw [hnew.1, hnew.2]
      simp
    · exact hold.names q hq

theorem Told.announce (h : Told (fun q _ => q = p) t) (hnew : t.Untold p) (n : Nat)
    {a : Announcement} {haves : Bitmap} (hcomplete : ∀ j ∈ t.comp.completed, j ∈ haves)
    (hnames : ∀ j, j ∈ haves ↔ a.Names j) : AllTold (t.announce p n a haves) := by
  refine ⟨h.known, h.valid, fun q hq j hj => .inr ?_, fun q hq => ?_⟩
  · change j ∈ update t.buf.sentHaves p haves q
    by_cases hqp : q = p
    · subst hqp
      rw [update_self]
      exact hcomplete j hj
    · rw [update_of_ne hqp]
      exact (h.told q hq j hj).resolve_left hqp
  · change ∀ j, j ∈ update t.buf.sentHaves p haves q ↔
      ∃ a' ∈ update t.buf.announced p (t.buf.announced p ++ [a]) q, a'.Names j
    by_cases hqp : q = p
    · subst hqp
      rw [update_self, update_self, hnew.2]
      simpa using hnames
    · rw [update_of_ne hqp, update_of_ne hqp]
      exact h.names q hq

/-- **The initial messages tell a connection of every complete piece.** -/
theorem AllTold.peerConnAdded (h : AllTold t) (hp : p ∉ t.avail.peerIds)
    (fast transmission : Bool) (addr : Option (Nat × Nat)) :
    AllTold (t.peerConnAdded p fast transmission addr) := by
  have hjoined := h.connJoined hp fast transmission addr
  have hnew := connJoined_untold t p fast transmission addr
  unfold Torrent.peerConnAdded
  revert hjoined hnew
  generalize t.connJoined p fast transmission addr = t₁
  intro hjoined hnew
  unfold initialMessagesSent bitfieldPosted
  split_ifs with hall hnone hany
  · exact hjoined.announce hnew _ (fun j hj => Bitmap.mem_range.mpr (hjoined.valid j hj))
      fun j => Bitmap.mem_range
  · simp only [haveAnyPieces, Bool.and_eq_true, Bool.not_not] at hnone
    exact hjoined.announce hnew _ (fun j hj => absurd hj (isEmpty_iff.mp hnone.2 j))
      fun j => iff_of_false (not_mem_empty j) id
  · simp only [haveAnyPieces, Bool.not_not] at hany
    exact hjoined.refine fun q _ j hj _ => absurd hj (isEmpty_iff.mp hany j)
  · exact hjoined.announce hnew _ (fun j hj => hj) fun j => (names_bitfield hjoined.valid j).symm

/-! ## All steps -/

theorem allTold_writesFree : WritesFree BitfieldFirst AllTold where
  toAside := (told_pendingFree _).toAside
  indexPanic e he := bitfieldFirst_of_group (by rw [he]; decide)
  storePanic e he := bitfieldFirst_of_group (by rw [he]; decide)
  entry h _ := (told_peersFree _).updatePieceRequestOrder h _

theorem allTold_keeps : Keeps BitfieldFirst (fun _ _ => True) fun _ _ => AllTold := by
  have hp := told_peersFree fun _ _ => False
  have hhashers : HashersFree AllTold := ⟨fun h _ => h, fun h _ => h, fun h _ => h⟩
  have hbuffer : ∀ e : Panic, e.group = .buffer → BitfieldFirst e := fun e he =>
    bitfieldFirst_of_group (by rw [he]; decide)
  have hwrites := allTold_writesFree.keepsWrites (C := fun _ _ => True) hp.toReqsFree hbuffer
    fun h i => allTold_queue.queuePieceCheck (S := ∅) (d := none) (i := i) trivial h
  refine KeepsPieces.keeps { allTold_queue, hwrites with
    gotInfo := fun {t info} h _ hinfo _ => hp.gotInfo (I := fun _ _ => AllTold) allTold_queue h ?_
    addPeerConn := fun h hnew => h.peerConnAdded hnew _ _ _
    addWebSeed := fun {_ _ conforming addr} h hnew =>
      hp.toAvailFree.addWebSeed (h.newPeer hnew (.webseed conforming) addr 128 false)
    hashPiece := fun h => hhashers.hashPiece h _ _
    hashed := fun h _ => h
    toMarking := fun h _ _ => h
    marking := fun h _ _ => h
    markedComplete := fun h => hhashers.markedComplete h _ _
    verified := fun h _ => hhashers.setVerified h _ _
    done := fun h _ => h
    unspawn := fun h => h
    storageCompletion := fun h _ => h
    prio := .ofFree (fun e he => bitfieldFirst_of_group (by rw [he]; decide))
      (fun h => allTold_queue.update (S := ∅) (d := none) trivial h) fun h _ => h
    reorder := fun h hperm => {
      known := fun q hq => h.known q (hperm.mem_iff.mp hq)
      valid := h.valid
      told := fun q hq => h.told q (hperm.mem_iff.mp hq)
      names := fun q hq => h.names q (hperm.mem_iff.mp hq) }
    closeTorrent := fun h _ => hp.toAvailFree.closeTorrent (fun h' => h') hp.safe.close h }
    fun _ _ => hp.safe
  -- no piece is complete before the info is known
  unfold setInfo
  split_ifs
  · exact bitfieldFirst_of_group (by decide)
  · exact { h with
      valid := fun j hj => by
        have hzero : t.numPieces = 0 := by simp [numPieces, hinfo]
        exact absurd (hzero ▸ h.valid j hj) (Nat.not_lt_zero j) }

/-- **Every connection learns of every complete piece.** In every state that a run reaches, each
connection has been told of every complete piece, and what it has been told is what the messages
written to it say; the panic of `postBitfield` is not reached. -/
theorem connections_told (cfg : Config) (storage : Storage) (events : List Event) :
    Ends (fun e => e ≠ .bitfieldNotFirst)
      (fun t => ∀ p ∈ t.avail.conns, (∀ i ∈ t.comp.completed, i ∈ t.buf.sentHaves p) ∧
        ∀ i, i ∈ t.buf.sentHaves p ↔ ∃ a ∈ t.buf.announced p, a.Names i)
      (run step (init cfg storage) events) := by
  have hinit : AllTold (init cfg storage) :=
    ⟨nofun, nofun, nofun, nofun⟩
  have hrun := allTold_keeps.run hinit (Meets.of_forall (fun _ _ => trivial) events)
  refine hrun.imp fun t ⟨htold, _⟩ p hp => ⟨fun i hi => ?_, htold.names p hp⟩
  exact (htold.told p hp i hi).resolve_left id

end ReliableBT
