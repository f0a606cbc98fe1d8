import ReliableBT.Torrent.Runs

/-!
# Invariants about data

`TorrentData` is what of a torrent is about its data: the info, completion, hashers, chunk writes,
storage, and the dirty chunks. `AboutData E C K` lists what an invariant `K` of these tables has to
withstand, in terms of what happens to the data: a piece is pended, a chunk write begins, storage
takes bytes, the write returns, a hasher waits, reads, passes, marks and ends. `AboutData.dataOnly`
makes it an invariant of the torrent. `ChunksOnly` is for invariants that do not look at completion
and hashers.
-/

namespace ReliableBT

open Torrent List Function

variable {E : Panic → Prop} {C : Torrent → Event → Prop}

/-- The tables that are about data. -/
structure TorrentData where
  cfg : Config
  info : Option Info
  comp : Comp
  hashers : List Hasher
  verified : Nat → Option (List UInt8)
  writes : Writes
  storage : Storage
  dirtyChunks : Bitmap

/-- The torrent's tables that are about data. -/
def Torrent.data (t : Torrent) : TorrentData :=
  ⟨t.cfg, t.info, t.comp, t.hash.hashers, t.hash.verified, t.writes, t.storage, t.dirtyChunks⟩

variable {K : TorrentData → Prop}

theorem peersFree_data (hE : ∀ e : Panic, e.group ≠ .buffer → e.group ≠ .store → E e) :
    PeersFree E fun t => K t.data where
  panic e h := by rcases h with h | h | h <;> exact hE e (by simp [h]) (by simp [h])
  availPanic e h := by rcases h with h | h | h <;> exact hE e (by simp [h]) (by simp [h])

/-- What an invariant about data has to withstand of the info and of chunks. -/
structure AboutChunks (E : Panic → Prop) (C : Torrent → Event → Prop) (K : TorrentData → Prop) :
    Prop where
  panic : ∀ e : Panic, e.group ≠ .buffer → e.group ≠ .store → E e
  setInfo : ∀ {t : Torrent} {info}, K t.data → t.info = none → C t (.setInfo info) →
    K { t.data with info := some info }
  pendAll : ∀ {t : Torrent} {i : Nat}, K t.data → K (t.pendAllChunkSpecs i).data
  write : ∀ {t : Torrent} {w : ChunkWrite} {e : Event}, K t.data →
    t.wouldWrite (w.index, w.begin, w.data) → w.written = 0 →
    w.req = t.requestIndexFromRequest ⟨w.index, w.begin, u32 w.data.length⟩ →
    C t e → e.delivers = some (w.index, w.begin, w.data) → K (t.writeBegun w).data
  fill : ∀ {t : Torrent} {p input pops pex actions}, K t.data →
    C t (.fill p input pops pex actions) →
    Ends E (fun t => K t.data) (t.maybeUpdateActualRequestState p input pops)
  updateWebseed : ∀ {t : Torrent} {p input pops}, K t.data → t.isConn p = false →
    Ends E (fun t => K t.data) (t.maybeUpdateActualRequestState p input pops)
  overflow : ∀ {t : Torrent}, K t.data → ∀ w ∈ t.writes.inFlight,
    t.metaPieceLength w.index < w.begin + w.data.length → E .writeOverflowsPiece
  noPending : ∀ {t : Torrent}, K t.data → ∀ w ∈ t.writes.inFlight,
    t.writes.pendingWrites w.index = 0 → E .pendingWrites
  writing : ∀ {t : Torrent} {k w n} (stop : Nat), K t.data → t.writes.inFlight[k]? = some w →
    K { t.data with
      storage := Storage.write t.storage w stop
      writes.inFlight := t.writes.inFlight.set k { w with written := n } }
  stored : ∀ {t : Torrent} {k w}, K t.data → t.writes.inFlight[k]? = some w →
    K ((t.writeReturned k w.index).cover w).data
  failed : ∀ {t : Torrent} {k w}, K t.data → t.writes.inFlight[k]? = some w →
    t.chunksPerRegularPiece ≠ 0 →
    K ((t.writeReturned k w.index).chunkPended
      (u32 (t.pieceRequestIndexOffset (t.pieceIndexOfRequestIndex w.req) +
        w.req % t.chunksPerRegularPiece))).data

/-- What an invariant about data has to withstand: of completion and hashers, too. -/
structure AboutData (E : Panic → Prop) (C : Torrent → Event → Prop) (K : TorrentData → Prop) :
    Prop extends AboutChunks E C K where
  complete : ∀ {t : Torrent} {i c}, K t.data → K (t.setCompletion i c).data
  waiting : ∀ {t : Torrent} {i : Nat}, K t.data →
    K { t.data with hashers := t.hash.hashers ++ [⟨i, .waiting⟩] }
  waited : ∀ {t : Torrent} {k i : Nat}, K t.data → t.hash.hashers[k]? = some ⟨i, .waiting⟩ →
    t.writes.pendingWrites i = 0 →
    K { t.data with hashers := t.hash.hashers.set k ⟨i, .reading []⟩ }
  read : ∀ {t : Torrent} {k i : Nat} {bytes : List UInt8} (n : Nat), K t.data →
    t.hash.hashers[k]? = some ⟨i, .reading bytes⟩ →
    K { t.data with hashers :=
      t.hash.hashers.set k ⟨i, .reading (bytes ++ t.readPiece i bytes.length n)⟩ }
  passed : ∀ {t : Torrent} {k i : Nat} {bytes : List UInt8}, K t.data →
    t.hash.hashers[k]? = some ⟨i, .reading bytes⟩ →
    K { t.data with hashers := t.hash.hashers.set k ⟨i, .marking bytes false⟩ }
  marked : ∀ {t : Torrent} {k i : Nat} {bytes : List UInt8}, K t.data →
    t.hash.hashers[k]? = some ⟨i, .marking bytes false⟩ →
    K { t.data with hashers := t.hash.hashers.set k ⟨i, .marking bytes true⟩ }
  verified : ∀ {t : Torrent} {k i : Nat} {bytes : List UInt8}, K t.data →
    t.hash.hashers[k]? = some ⟨i, .marking bytes true⟩ → t.pieceComplete i = true →
    K { t.data with verified := update t.hash.verified i (some bytes) }
  ended : ∀ {t : Torrent} {k}, K t.data → K { t.data with hashers := t.hash.hashers.eraseIdx k }
  completion : ∀ {t : Torrent} {c}, K t.data → K { t.data with storage.completion := c }

theorem AboutData.dataOnly (h : AboutData E C K) : DataOnly E C fun t => K t.data where
  toPeersFree := peersFree_data h.panic
  pending ht _ := ht
  prio ht _ := ht
  stopped ht := ht
  setInfo ht hinfo hC := h.setInfo ht hinfo hC
  addConn ht _ := ht
  addWebSeed ht _ := ht
  reorder ht _ := ht
  pendAll _ ht := h.pendAll ht
  complete _ ht _ := h.complete ht
  flags ht _ _ _ _ := ht
  spawn ht _ := h.waiting ht
  write {t t' w e} now ht hs hwrite hwritten hreq hC he := by
    refine (peersFree_data h.panic).beginWrite ?_ now
    -- what the write begins with is in `t` as in `t'`
    rw [hs] at ht ⊢
    exact h.write (t := t) ht hwrite hwritten hreq hC he
  fill ht _ hC := h.fill ht hC
  updateWebseed := h.updateWebseed
  writeChunk {t k stop} ht := by
    unfold writeChunk
    split
    · exact ht
    · rename_i w hk
      refine Ends.require (fun _ => h.writing stop ht hk) fun hover => ?_
      exact h.overflow ht w (mem_of_getElem? hk) (Nat.lt_of_not_le hover)
  chunkWritten ht := by
    have hplain := (peersFree_data h.panic).plain (fun ht _ => ht) (fun _ ht => h.pendAll ht)
      (fun _ ht _ => h.complete ht) (fun ht _ _ _ _ => ht) fun ht _ => h.waiting ht
    exact (peersFree_data h.panic).chunkWritten ht (h.overflow ht) (h.noPending ht)
      (fun _ hk => hplain.chunkStored (h.stored ht hk)) fun _ hk hcpp _ => h.failed ht hk hcpp
  hashPiece {t k n} ht := by
    unfold hashPiece
    split
    · rename_i hk
      split_ifs with hzero
      · exact h.waited ht hk hzero
      · exact ht
    · rename_i hk
      exact h.read n ht hk
    · exact ht
  toMarking ht hk := h.passed ht hk
  markedComplete {t k ok} ht := by
    unfold markedComplete markComplete
    split
    · rename_i i bytes hk
      split_ifs
      · exact h.completion (t := { t with
          hash.hashers := t.hash.hashers.set k ⟨i, .marking bytes true⟩ }) (h.marked ht hk)
      · exact h.marked ht hk
    · exact ht
  verified {t k i bytes} ht hk := by
    unfold setVerified
    split_ifs with hcomplete
    · exact h.verified ht hk hcomplete
    · exact ht
  unspawn ht _ := h.ended ht
  storageCompletion ht _ := h.completion ht

/-- What an invariant about chunks has to withstand that does not look at completion and
hashers. -/
structure ChunksOnly (E : Panic → Prop) (C : Torrent → Event → Prop) (K : TorrentData → Prop) :
    Prop extends AboutChunks E C K where
  hashing : ∀ {d : TorrentData}, K d → ∀ comp hashers verified completion, K { d with
    comp := comp, hashers := hashers, verified := verified, storage.completion := completion }

theorem ChunksOnly.aboutData (h : ChunksOnly E C K) : AboutData E C K where
  toAboutChunks := h.toAboutChunks
  complete ht := h.hashing ht _ _ _ _
  waiting ht := h.hashing ht _ _ _ _
  waited ht _ _ := h.hashing ht _ _ _ _
  read _ ht _ := h.hashing ht _ _ _ _
  passed ht _ := h.hashing ht _ _ _ _
  marked ht _ := h.hashing ht _ _ _ _
  verified ht _ _ := h.hashing ht _ _ _ _
  ended ht := h.hashing ht _ _ _ _
  completion ht := h.hashing ht _ _ _ _

/-! ## Pending writes count the writes in flight -/

section Pending

variable {α : Type} {l : List α} {k : Nat} {a b : α}

theorem perm_eraseIdx (h : l[k]? = some a) : (a :: l.eraseIdx k).Perm l := by
  obtain ⟨hk, rfl⟩ := List.getElem?_eq_some_iff.mp h
  exact List.getElem_cons_eraseIdx_perm hk

theorem perm_set (h : l[k]? = some a) : (b :: l.eraseIdx k).Perm (l.set k b) := by
  obtain ⟨hk, rfl⟩ := List.getElem?_eq_some_iff.mp h
  have hget : (l.set k b)[k]? = some b := by simp [hk]
  have hperm := perm_eraseIdx hget
  rwa [eraseIdx_set_eq] at hperm

end Pending

/-- `pendingWrites` counts at least the writes in flight. -/
def Counted (inFlight : List ChunkWrite) (pendingWrites : Nat → Nat) : Prop :=
  ∀ i, (inFlight.countP fun w => decide (w.index = i)) ≤ pendingWrites i

namespace Counted

variable {inFlight : List ChunkWrite} {pendingWrites : Nat → Nat} {k : Nat} {w w' : ChunkWrite}

section

variable (h : Counted inFlight pendingWrites)
include h

theorem begun (w : ChunkWrite) :
    Counted (inFlight ++ [w]) (update pendingWrites w.index (pendingWrites w.index + 1)) := by
  intro i
  have hi := h i
  rw [countP_append, countP_singleton]
  by_cases hw : w.index = i
  · subst hw
    simpa using hi
  · simpa [hw, update_of_ne (Ne.symm hw)] using hi

theorem returned (hk : inFlight[k]? = some w) :
    Counted (inFlight.eraseIdx k) (update pendingWrites w.index (pendingWrites w.index - 1)) := by
  intro i
  have hi := h i
  rw [← (perm_eraseIdx hk).countP_eq, countP_cons] at hi
  by_cases hw : w.index = i
  · subst hw
    simp only [decide_true, if_true, update_self] at hi ⊢
    omega
  · rw [update_of_ne (Ne.symm hw)]
    omega

theorem set (hk : inFlight[k]? = some w)
    (hindex : w'.index = w.index) : Counted (inFlight.set k w') pendingWrites := by
  intro i
  have hi := h i
  rw [← (perm_eraseIdx hk).countP_eq, countP_cons] at hi
  rwa [← (perm_set hk).countP_eq, countP_cons, hindex]

theorem not_inFlight {i : Nat} (hi : pendingWrites i = 0) : ∀ w ∈ inFlight, w.index ≠ i := by
  intro w hw heq
  have hpos : 0 < inFlight.countP fun w => decide (w.index = i) :=
    countP_pos_iff.mpr ⟨w, hw, decide_eq_true heq⟩
  have := h i
  omega

end

end Counted

theorem notPending_of_group {e : Panic} (h : e.group ≠ .store) : e ≠ .pendingWrites :=
  fun he => h (by rw [he]; rfl)

/-- Every write in flight is counted. -/
def WritesCounted (d : TorrentData) : Prop := Counted d.writes.inFlight d.writes.pendingWrites

theorem writesCounted_peersFree : PeersFree (· ≠ .pendingWrites) fun t => WritesCounted t.data :=
  peersFree_data fun _ _ => notPending_of_group

theorem writesCounted_chunksOnly :
    ChunksOnly (· ≠ .pendingWrites) (fun _ _ => True) WritesCounted where
  panic _ _ := notPending_of_group
  hashing h _ _ _ _ := h
  setInfo h _ _ := h
  pendAll h := h
  write h _ _ _ _ _ := Counted.begun h _
  fill h _ := writesCounted_peersFree.maybeUpdateActualRequestState
    (fun _ he => notPending_of_group (by rw [he]; decide)) h _ _ _
  updateWebseed h _ := writesCounted_peersFree.maybeUpdateActualRequestState
    (fun _ he => notPending_of_group (by rw [he]; decide)) h _ _ _
  overflow _ _ _ _ := by decide
  noPending h w hw hzero := absurd rfl (Counted.not_inFlight h hzero w hw)
  writing _ h hk := Counted.set h hk rfl
  stored h hk := Counted.returned h hk
  failed h hk _ := Counted.returned h hk

/-- **Pending writes.** Whatever happens to a torrent, in any order: every write that is under way
is counted as a pending write of its piece, so that `decrementPendingWrites` does not panic. -/
theorem pending_writes_counted (cfg : Config) (storage : Storage) (events : List Event) :
    Ends (· ≠ .pendingWrites)
      (fun t => ∀ i, (t.writes.inFlight.countP fun w => decide (w.index = i)) ≤
        t.writes.pendingWrites i) (run step (init cfg storage) events) :=
  (writesCounted_chunksOnly.aboutData.dataOnly.keeps.run (fun _ => Nat.le_refl 0)
    (.of_forall (fun _ _ => trivial) events)).imp fun _ h => h.1

end ReliableBT
