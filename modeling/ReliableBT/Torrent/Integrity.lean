import ReliableBT.Torrent.Data

/-!
# Verified pieces stay intact (`pieceHasher`, `pieceHashed`, `receiveChunk`)

Hashing a piece, marking it complete and writing chunks all run without the client lock. A hasher
waits until its piece has no pending writes, and `receiveChunk` does not write a chunk it has. That
keeps writes away from pieces that are complete, and from pieces that a hasher has not begun to
read. It does not keep a chunk that was requested before the check from being written while the
hasher reads, or while the piece is marked: `pieceHasher` does not cancel requests, and
`receiveChunk` does not look at `hashing` and `marking`.

* `verified_pieces_intact`: in a run where no chunk of a piece is delivered to be written while a
  hasher is past waiting for that piece, a piece that is complete because its hash was right has the
  bytes that were hashed, and no write of it is in flight from the first byte the hasher reads.
* `write_during_check`: `VerifyData` on a piece with a chunk requested; the chunk arrives after the
  piece was read. The piece is complete, and its bytes are not those that were hashed.
-/

open List Function

namespace ReliableBT

open Torrent

/-- The bytes that a hasher has read. -/
def HashPhase.bytes : HashPhase → Option (List UInt8)
  | waiting => none
  | reading bytes => some bytes
  | marking bytes _ => some bytes

/-- A chunk is delivered to be written only to a piece that no hasher is past waiting for. -/
def NotWhileHashing (t : Torrent) (e : Event) : Prop :=
  ∀ c ∈ e.delivers, t.wouldWrite c → ∀ h ∈ t.hash.hashers, h.piece = c.1 → h.phase = .waiting

instance (t : Torrent) (e : Event) : Decidable (NotWhileHashing t e) :=
  inferInstanceAs (Decidable (∀ c ∈ e.delivers, _ → ∀ h ∈ t.hash.hashers, _ → _))

/-- The first bytes of the piece are these, and no write of it is in flight. -/
structure Undisturbed (inFlight : List ChunkWrite) (stored : Nat → Nat → UInt8) (i : Nat)
    (bytes : List UInt8) : Prop where
  quiet : ∀ w ∈ inFlight, w.index ≠ i
  same : (range bytes.length).map (stored i) = bytes

/-- What hashers have read, and what was verified, is undisturbed. -/
structure Intact (d : TorrentData) : Prop where
  counted : Counted d.writes.inFlight d.writes.pendingWrites
  hashers : ∀ h ∈ d.hashers, ∀ bytes ∈ h.phase.bytes,
    Undisturbed d.writes.inFlight d.storage.bytes h.piece bytes
  verified : ∀ i, ∀ bytes ∈ d.verified i,
    i ∈ d.comp.completed ∧ Undisturbed d.writes.inFlight d.storage.bytes i bytes

variable {inFlight inFlight' : List ChunkWrite} {stored stored' : Nat → Nat → UInt8} {i : Nat}
  {bytes : List UInt8}

theorem Undisturbed.subset (h : Undisturbed inFlight stored i bytes) (hsub : inFlight' ⊆ inFlight) :
    Undisturbed inFlight' stored i bytes :=
  ⟨fun w hw => h.quiet w (hsub hw), h.same⟩

theorem Undisturbed.begun (h : Undisturbed inFlight stored i bytes) {w : ChunkWrite}
    (hw : w.index ≠ i) : Undisturbed (inFlight ++ [w]) stored i bytes where
  quiet w' hw' := by
    rcases mem_append.mp hw' with hw' | hw'
    · exact h.quiet w' hw'
    · rw [mem_singleton.mp hw']
      exact hw
  same := h.same

theorem Undisturbed.writing {s : Storage} (h : Undisturbed inFlight s.bytes i bytes) {k n : Nat}
    {w : ChunkWrite} (hk : inFlight[k]? = some w) (stop : Nat) :
    Undisturbed (inFlight.set k { w with written := n }) (Storage.write s w stop).bytes i
      bytes where
  quiet w' hw' := by
    rcases mem_or_eq_of_mem_set hw' with hw' | rfl
    · exact h.quiet w' hw'
    · exact h.quiet w (mem_of_getElem? hk)
  same := by
    have hother : (Storage.write s w stop).bytes i = s.bytes i := by
      funext j
      have hne : i ≠ w.index := fun heq => h.quiet w (mem_of_getElem? hk) heq.symm
      simp [Storage.write, hne]
    rw [hother]
    exact h.same

theorem Undisturbed.read (h : Undisturbed inFlight stored i bytes) (n : Nat) :
    Undisturbed inFlight stored i (bytes ++ (range' bytes.length n).map (stored i)) where
  quiet := h.quiet
  same := by
    rw [length_append, length_map, length_range', range_add,
      map_append, h.same, range'_eq_map_range, map_map]

theorem Intact.setHasher {d : TorrentData} (h : Intact d) {k : Nat} {x : Hasher}
    (hx : ∀ bytes ∈ x.phase.bytes, Undisturbed d.writes.inFlight d.storage.bytes x.piece bytes) :
    Intact { d with hashers := d.hashers.set k x } where
  counted := h.counted
  hashers y hy bytes hbytes := by
    rcases mem_or_eq_of_mem_set hy with hy | rfl
    · exact h.hashers y hy bytes hbytes
    · exact hx bytes hbytes
  verified := h.verified

theorem intact_peersFree : PeersFree (fun _ => True) fun t => Intact t.data :=
  peersFree_data fun _ _ _ => trivial

theorem intact_write {t : Torrent} {w : ChunkWrite} (h : Intact t.data)
    (hwrite : t.wouldWrite (w.index, w.begin, w.data))
    (hhash : ∀ x ∈ t.hash.hashers, x.piece = w.index → x.phase = .waiting) :
    Intact (t.writeBegun w).data where
  counted := h.counted.begun w
  hashers x hx bytes hbytes := by
    refine (h.hashers x hx bytes hbytes).begun fun heq => ?_
    rw [hhash x hx heq.symm] at hbytes
    cases hbytes
  verified i bytes hbytes := by
    obtain ⟨hcomplete, hundisturbed⟩ := h.verified i bytes hbytes
    refine ⟨hcomplete, hundisturbed.begun fun heq => ?_⟩
    -- the chunks of a complete piece are had
    obtain ⟨hvalid, hhave⟩ := hwrite
    have hc : w.index ∈ t.comp.completed := heq ▸ hcomplete
    cases hinfo : t.info with
    | none => simp [checkValidReceiveChunk, haveInfo, hinfo] at hvalid
    | some info => simp [haveChunk, haveInfo, hinfo, pieceComplete, hc] at hhave

theorem intact_aboutData : AboutData (fun _ => True) NotWhileHashing Intact where
  panic _ _ _ := trivial
  setInfo h _ _ := ⟨h.counted, h.hashers, h.verified⟩
  pendAll h := ⟨h.counted, h.hashers, h.verified⟩
  write h hwrite _ _ hC he := intact_write h hwrite (hC _ he hwrite)
  fill h _ := intact_peersFree.maybeUpdateActualRequestState (fun _ _ => trivial) h _ _ _
  updateWebseed h _ := intact_peersFree.maybeUpdateActualRequestState (fun _ _ => trivial) h _ _ _
  overflow _ _ _ _ := trivial
  noPending _ _ _ _ := trivial
  writing {t k w n} stop h hk :=
    ⟨h.counted.set hk rfl, fun x hx bytes hbytes => (h.hashers x hx bytes hbytes).writing hk stop,
      fun i bytes hbytes => ⟨(h.verified i bytes hbytes).1,
        (h.verified i bytes hbytes).2.writing hk stop⟩⟩
  stored {t k w} h hk :=
    ⟨h.counted.returned hk,
      fun x hx bytes hbytes =>
        (h.hashers x hx bytes hbytes).subset (eraseIdx_sublist _ _).subset,
      fun i bytes hbytes => ⟨(h.verified i bytes hbytes).1,
        (h.verified i bytes hbytes).2.subset (eraseIdx_sublist _ _).subset⟩⟩
  failed {t k w} h hk _ :=
    ⟨h.counted.returned hk,
      fun x hx bytes hbytes =>
        (h.hashers x hx bytes hbytes).subset (eraseIdx_sublist _ _).subset,
      fun i bytes hbytes => ⟨(h.verified i bytes hbytes).1,
        (h.verified i bytes hbytes).2.subset (eraseIdx_sublist _ _).subset⟩⟩
  complete {t i c} h := by
    refine ⟨h.counted, h.hashers, fun j bytes hbytes => ?_⟩
    cases hc : c.complete with
    | true =>
      simp only [setCompletion, data, hc, if_true] at hbytes ⊢
      obtain ⟨hcomplete, hundisturbed⟩ := h.verified j bytes hbytes
      exact ⟨Bitmap.mem_add.mpr (.inr hcomplete), hundisturbed⟩
    | false =>
      simp only [setCompletion, data, hc, Bool.false_eq_true, if_false] at hbytes ⊢
      by_cases hj : j = i
      · subst hj
        simp at hbytes
      · rw [update_of_ne hj] at hbytes
        obtain ⟨hcomplete, hundisturbed⟩ := h.verified j bytes hbytes
        exact ⟨Bitmap.mem_remove.mpr ⟨hcomplete, hj⟩, hundisturbed⟩
  waiting {t i} h := by
    refine ⟨h.counted, fun x hx bytes hbytes => ?_, h.verified⟩
    rcases mem_append.mp hx with hx | hx
    · exact h.hashers x hx bytes hbytes
    · rw [mem_singleton.mp hx] at hbytes
      cases hbytes
  waited {t k i} h hk hzero := by
    refine h.setHasher fun bytes hbytes => ?_
    cases hbytes
    exact ⟨h.counted.not_inFlight hzero, rfl⟩
  read {t k i bytes} n h hk := by
    refine h.setHasher fun bytes' hbytes => ?_
    cases hbytes
    exact (h.hashers _ (mem_of_getElem? hk) bytes rfl).read _
  passed {t k i bytes} h hk := by
    refine h.setHasher fun bytes' hbytes => ?_
    cases hbytes
    exact h.hashers _ (mem_of_getElem? hk) bytes rfl
  marked {t k i bytes} h hk := by
    refine h.setHasher fun bytes' hbytes => ?_
    cases hbytes
    exact h.hashers _ (mem_of_getElem? hk) bytes rfl
  verified {t k i bytes} h hk hcomplete := by
    refine ⟨h.counted, h.hashers, fun j bytes' hbytes => ?_⟩
    dsimp only at hbytes ⊢
    by_cases hj : j = i
    · subst hj
      rw [update_self] at hbytes
      cases hbytes
      exact ⟨of_decide_eq_true hcomplete, h.hashers _ (mem_of_getElem? hk) bytes rfl⟩
    · rw [update_of_ne hj] at hbytes
      exact h.verified j bytes' hbytes
  ended h := ⟨h.counted, fun x hx => h.hashers x (mem_of_mem_eraseIdx hx), h.verified⟩
  completion h := ⟨h.counted, h.hashers, h.verified⟩

/-- What a hasher has read is what is stored, and no write of its piece is in flight, up to the end
of completion; and so it is with a piece that is complete because its hash was right. -/
def VerifiedIntact (t : Torrent) : Prop :=
  (∀ i, ∀ bytes ∈ t.hash.verified i, i ∈ t.comp.completed ∧
    (range bytes.length).map (t.storage.bytes i) = bytes ∧ ∀ w ∈ t.writes.inFlight, w.index ≠ i) ∧
  ∀ h ∈ t.hash.hashers, ∀ bytes ∈ h.phase.bytes,
    (range bytes.length).map (t.storage.bytes h.piece) = bytes ∧
    ∀ w ∈ t.writes.inFlight, w.index ≠ h.piece

/-- **Verified pieces stay intact** in every run where no chunk of a piece is delivered to be
written while a hasher reads or marks the piece. -/
theorem verified_pieces_intact (cfg : Config) (storage : Storage) (events : List Event)
    (hC : Meets step NotWhileHashing (init cfg storage) events) :
    Gives VerifiedIntact (run step (init cfg storage) events) := by
  have hinit : Intact (init cfg storage).data :=
    ⟨fun _ => Nat.le_refl 0, fun _ hx => (not_mem_nil hx).elim, fun _ _ h => (nomatch h)⟩
  refine (intact_aboutData.dataOnly.keeps.run hinit hC).imp fun t ⟨ht, _⟩ => ⟨?_, ?_⟩
  · intro i bytes hbytes
    obtain ⟨hcomplete, hundisturbed⟩ := ht.verified i bytes hbytes
    exact ⟨hcomplete, hundisturbed.same, hundisturbed.quiet⟩
  · intro h hh bytes hbytes
    have hundisturbed := ht.hashers h hh bytes hbytes
    exact ⟨hundisturbed.same, hundisturbed.quiet⟩

/-- `VerifyData` on a piece of which the first chunk is requested from a connection; `early` is what
happens before it, and `late` between the hash read and completion. Then storage takes the bytes of
a write, if any. -/
def checkPiece (early late : List Event) : List Event :=
  [.setInfo smallInfo, .addConn 1 true false none,
    .message 1 { type := .haveAll } (.other false) 0, .downloadPieces 0 1,
    .message 1 { type := .unchoke } (.other false) 0, .fill 1 {} [] 0 []] ++ early ++
  [.verifyData 0, .hashPiece 0 0, .hashPiece 0 8] ++ late ++
  [.pieceHasher 0 [] [] true, .markedComplete 0 true, .pieceMarked 0, .writeChunk 0 4]

/-- Eight zero bytes are what the piece should be, and what storage has. -/
def zeroConfig : Config :=
  { smallConfig with hashOk := fun _ bytes => bytes == replicate 8 0 }

theorem write_during_check :
    Reaches (fun t => 0 ∈ t.comp.completed ∧
        t.hash.verified 0 = some (replicate 8 0) ∧ t.storage.bytes 0 0 = 1)
      (run step (init zeroConfig emptyStorage)
        (checkPiece []
          [.message 1 { type := .piece, piece := [1, 2, 3, 4] } (.other false) 0])) := by
  decide

/-- The first chunk arrives and is written. -/
def chunkArrives : List Event :=
  [.message 1 { type := .piece, piece := [0, 0, 0, 0] } (.other false) 0, .writeChunk 0 4,
    .chunkWritten 0 true]

theorem checked_piece_intact :
    Reaches (fun t => t.hash.verified 0 = some (replicate 8 0))
        (run step (init zeroConfig emptyStorage) (checkPiece chunkArrives [])) ∧
      Gives VerifiedIntact (run step (init zeroConfig emptyStorage) (checkPiece chunkArrives [])) :=
  ⟨by decide,
    verified_pieces_intact zeroConfig emptyStorage (checkPiece chunkArrives []) (by decide)⟩

end ReliableBT
