import ReliableBT.Torrent.Baseline

/-!
# Allowed-fast pieces (`peerconn.go`, `requesting.go`)

A peer with the fast extension may allow some pieces to be requested while it chokes us. The source
keeps them in `peerAllowedFast`, which `getDesiredRequestState` and `expectingChunks` read. Neither
does what it is for.

* `allowedFast_none`: an `AllowedFast` message only asks for an update, so the table is empty in
  every run, and `desired_while_choked` says what follows: while the peer chokes us, the chunks
  desired from it are those it has been asked for before.
* `expectingChunks_iff`: `expectingChunks` counts the requests in the range of each allowed-fast
  piece, and takes the first piece for which there are none. The iteration stops early, but what it
  finds is whether some piece passes the test.
* `expectingChunks_right_iff`: so the function is right for a peer that chokes us exactly if no
  piece is allowed fast, or one with a request and one without.
-/

open List Nat

namespace ReliableBT

namespace Torrent

/-- The requests that `expectingChunks` counts for piece `i`. -/
def requestsInPiece (t : Torrent) (p i : Nat) : Nat :=
  rangeCardinality (t.reqs.requests p).bitmap (t.pieceRequestIndexOffset i)
    (t.pieceRequestIndexOffset (i + 1))

/-- The iteration of `expectingChunks` over the allowed-fast pieces, with `haveAllowedFastRequests`.
It goes on as long as that is not set. -/
def iterateAllowedFast (t : Torrent) (p : Nat) : List Nat → Bool → Bool
  | [], haveAllowedFastRequests => haveAllowedFastRequests
  | i :: pieces, _ =>
    let haveAllowedFastRequests := decide (t.requestsInPiece p i = 0)
    if !haveAllowedFastRequests then t.iterateAllowedFast p pieces haveAllowedFastRequests
    else haveAllowedFastRequests

/-- `expectingChunks` -/
def expectingChunks (t : Torrent) (p : Nat) : Bool :=
  if (t.reqs.requests p).isEmpty then false
  else if !t.ctl.interested p then false
  else if !t.ctl.peerChoking p then true
  else t.iterateAllowedFast p (t.ctl.peerAllowedFast p).elems false

/-- A chunk of the peer is to be expected: we are interested, there is a request, and the peer does
not choke us or a request is of an allowed-fast piece. -/
def ExpectsChunks (t : Torrent) (p : Nat) : Prop :=
  t.ctl.interested p = true ∧ (∃ r, r ∈ t.reqs.requests p) ∧
    (t.ctl.peerChoking p = false ∨
      ∃ r ∈ t.reqs.requests p, t.pieceIndexOfRequestIndex r ∈ t.ctl.peerAllowedFast p)

end Torrent

open Torrent

variable {t : Torrent} {p i : Nat}

/-! ## What is desired while the peer chokes us -/

/-- No piece is allowed fast by any peer. -/
def NoAllowedFast (t : Torrent) : Prop := ∀ p, t.ctl.peerAllowedFast p = Bitmap.empty

theorem noAllowedFast_reqsFree : ReqsFree (fun _ => True) NoAllowedFast where
  ctl h c hc p := by
    change c.peerAllowedFast p = _
    rw [hc.allowedFast]
    exact h p

theorem noAllowedFast_requestsOnly : RequestsOnly (fun _ => True) NoAllowedFast where
  toUnbooks := noAllowedFast_reqsFree.unbooks

theorem noAllowedFast_aboutRequests :
    AboutRequests (fun _ => True) (fun _ _ => True) NoAllowedFast :=
  noAllowedFast_requestsOnly.aboutRequests noAllowedFast_reqsFree (fun _ _ => trivial)
    fun h _ _ => h

/-- No run adds an allowed-fast piece: the message about one only asks for an update. -/
theorem allowedFast_none (cfg : Config) (storage : Storage) (events : List Event) :
    Gives NoAllowedFast (run step (init cfg storage) events) :=
  (noAllowedFast_aboutRequests.aboutPeers.keeps.run (fun _ => rfl)
    (.of_forall (fun _ _ => trivial) events)).imp fun _ h => h.1

theorem mayRequest_choked (hnone : NoAllowedFast t) (hchoking : t.ctl.peerChoking p = true)
    (item : OrderItem) (r : Nat) :
    t.mayRequest p item r = true ↔ r ∈ t.reqs.requests p ∧ r ∉ t.reqs.cancelled p ∧
      ¬ (t.isBaselineProvider p = true ∧ 1 < item.state.availability) := by
  unfold mayRequest
  cases t.isBaselineProvider p <;> simp [hnone p, hchoking, and_assoc]

/-- **Desired while choked.** In every run, a chunk of an emitted piece that a choking peer has, and
that nothing else speaks against, is desired from the peer exactly if it is requested from it
already, whatever the peer has allowed. -/
theorem desired_while_choked (cfg : Config) (storage : Storage) (events : List Event) :
    Gives (fun t => ∀ p input desired, t.getDesiredRequestState p input = .ok desired →
        t.ctl.peerChoking p = true → ∀ item ∈ t.getRequestablePieces input,
        item.infoHash = t.cfg.infoHash → t.peerHasPiece p item.index = true →
        ∀ r ∈ t.undirtiedRequestIndexes item.index, r ∉ t.reqs.cancelled p →
        ¬ (t.isBaselineProvider p = true ∧ 1 < item.state.availability) →
          (r ∈ desired.requests ↔ t.closed = false ∧ r ∈ t.reqs.requests p))
      (run step (init cfg storage) events) := by
  refine (allowedFast_none cfg storage events).imp fun t hnone p input desired hdesired hchoking
    item hitem hown hhas r hr hcancelled hbaseline => ?_
  have hlt := (emitted_entry hitem hown).1
  have hmem : item ∈ t.requestablePieces p input :=
    mem_filter.mpr ⟨hitem, by simp [hown, hhas]⟩
  unfold getDesiredRequestState at hdesired
  split_ifs at hdesired with hno hclosed
  · cases hinfo : t.info with
    | none => simp [numPieces, hinfo] at hlt
    | some info => simp [haveInfo, hinfo] at hno
  · cases hdesired
    simp [hclosed]
  · cases hdesired
    rw [mem_flatMap]
    constructor
    · rintro ⟨item', -, hr'⟩
      have hmay := (mem_filter.mp hr').2
      exact ⟨by simpa using hclosed, ((mayRequest_choked hnone hchoking item' r).mp hmay).1⟩
    · rintro ⟨-, hrequested⟩
      have hmay := (mayRequest_choked hnone hchoking item r).mpr ⟨hrequested, hcancelled, hbaseline⟩
      exact ⟨item, hmem, mem_filter.mpr ⟨hr, hmay⟩⟩

/-- A connection with the fast extension that has everything allows piece 0, which is wanted. -/
def allowsFast : List Event :=
  [.setInfo smallInfo, .addConn 1 true false none, pieceMessage .haveAll 0,
    pieceMessage .allowedFast 0, .downloadPieces 0 1]

/-- The piece that is allowed is emitted, and its chunks are free, but none is desired. -/
theorem allowed_fast_not_desired :
    Reaches (fun t => t.fastEnabled 1 = true ∧ t.ctl.peerChoking 1 = true ∧
        t.peerHasPiece 1 0 = true ∧ t.isBaselineProvider 1 = false ∧
        (∃ item ∈ t.getRequestablePieces {}, item.infoHash = t.cfg.infoHash ∧ item.index = 0) ∧
        t.undirtiedRequestIndexes 0 = [0, 1] ∧ t.reqs.cancelled 1 = Bitmap.empty ∧
        Reaches (fun desired => desired.requests = []) (t.getDesiredRequestState 1 {}))
      (run step (init smallConfig emptyStorage) allowsFast) := by
  decide

theorem choked_chunk_desired :
    Reaches (fun t => t.ctl.peerChoking 1 = true ∧
        ∀ desired, t.getDesiredRequestState 1 {} = .ok desired → 0 ∈ desired.requests)
      (run step (init smallConfig emptyStorage)
        (allowsFast ++ [pieceMessage .unchoke 0, .fill 1 {} [] 0 [], pieceMessage .choke 0])) := by
  have hstate : Reaches (fun t => t.ctl.peerChoking 1 = true ∧ t.closed = false ∧
      0 ∈ t.reqs.requests 1 ∧ 0 ∉ t.reqs.cancelled 1 ∧ t.isBaselineProvider 1 = false ∧
      ∃ item ∈ t.getRequestablePieces {}, item.infoHash = t.cfg.infoHash ∧
        t.peerHasPiece 1 item.index = true ∧ 0 ∈ t.undirtiedRequestIndexes item.index)
      (run step (init smallConfig emptyStorage)
        (allowsFast ++ [pieceMessage .unchoke 0, .fill 1 {} [] 0 [], pieceMessage .choke 0])) := by
    decide
  refine (hstate.and (desired_while_choked smallConfig emptyStorage _)).imp ?_
  rintro t ⟨⟨hchoking, hopen, hr, hcancelled, hbaseline, item, hitem, hown, hhas, hchunk⟩, h⟩
  refine ⟨hchoking, fun desired hdesired => ?_⟩
  exact (h 1 {} desired hdesired hchoking item hitem hown hhas 0 hchunk hcancelled
    (by simp [hbaseline])).mpr ⟨hopen, hr⟩

/-! ## Expecting chunks -/

theorem iterateAllowedFast_eq (pieces : List Nat) :
    t.iterateAllowedFast p pieces false =
      pieces.any fun i => decide (t.requestsInPiece p i = 0) := by
  induction pieces with
  | nil => rfl
  | cons i pieces ih =>
    unfold iterateAllowedFast
    by_cases hzero : t.requestsInPiece p i = 0
    · simp [hzero]
    · simp [hzero, ih]

theorem expectingChunks_iff : t.expectingChunks p = true ↔
    t.ctl.interested p = true ∧ (∃ r, r ∈ t.reqs.requests p) ∧ (t.ctl.peerChoking p = false ∨
      ∃ i ∈ t.ctl.peerAllowedFast p, t.requestsInPiece p i = 0) := by
  have hempty : (t.reqs.requests p).isEmpty = true ↔ ¬ ∃ r, r ∈ t.reqs.requests p := by
    rw [OrderedBitmap.isEmpty_iff, not_exists]
  unfold expectingChunks
  split_ifs with h hinterested hchoking
  · exact ⟨nofun, fun hall => absurd hall.2.1 (hempty.mp h)⟩
  · exact ⟨nofun, fun hall => absurd hall.1 (by simpa using hinterested)⟩
  · have hsome := not_not.mp ((not_congr hempty).mp h)
    exact ⟨fun _ => ⟨by simpa using hinterested, hsome, .inl (by simpa using hchoking)⟩,
      fun _ => rfl⟩
  · have hsome := not_not.mp ((not_congr hempty).mp h)
    rw [iterateAllowedFast_eq, any_eq_true]
    simp only [decide_eq_true_eq, Bitmap.mem_elems]
    refine ⟨fun hany => ⟨by simpa using hinterested, hsome, .inr hany⟩, fun hall => ?_⟩
    exact hall.2.2.resolve_left (by simpa using hchoking)

theorem requestsInPiece_eq_zero_iff {info : Info} (hinfo : t.info = some info)
    (hreg : info.Regular t.cfg.chunkSize) (hpiece : info.pieceLength ≠ 0)
    (hi : i < info.numPieces) :
    t.requestsInPiece p i = 0 ↔ ∀ r ∈ t.reqs.requests p, t.pieceIndexOfRequestIndex r ≠ i := by
  have hpos : 0 < info.chunksPerRegularPiece t.cfg.chunkSize := by
    rw [hreg.chunksPerRegularPiece_eq t.cfg.chunkSize_pos]
    exact div_pos (by omega) t.cfg.chunkSize_pos
  have hbound : (i + 1) * info.chunksPerRegularPiece t.cfg.chunkSize < 2 ^ 32 :=
    lt_of_le_of_lt (mul_le_mul_right _ hi) hreg.2
  have hlt : i * info.chunksPerRegularPiece t.cfg.chunkSize <
      (i + 1) * info.chunksPerRegularPiece t.cfg.chunkSize :=
    mul_lt_mul_of_pos_right (lt_succ_self i) hpos
  simp only [requestsInPiece, pieceRequestIndexOffset, pieceIndexOfRequestIndex,
    chunksPerRegularPiece, hinfo, Option.map_some, Option.getD_some]
  rw [hreg.offset_eq hi.le, hreg.offset_eq hi, rangeCardinality_eq_zero_iff _ hlt hbound.le]
  refine forall₂_congr fun r _ => not_congr ⟨fun h => Nat.div_eq_of_lt_le h.1 h.2, ?_⟩
  rintro rfl
  exact ⟨div_mul_le_self _ _, (div_lt_iff_lt_mul hpos).mp (lt_succ_self _)⟩

/-- **`expectingChunks` against its purpose**, in a regular torrent. It is right in every state but
those where we are interested in a peer that chokes us and has requests: there it is right only if
no piece is allowed fast, or both one that has a request and one that has none. -/
theorem expectingChunks_right_iff (t : Torrent) (p : Nat) (info : Info)
    (hinfo : t.info = some info) (hreg : info.Regular t.cfg.chunkSize)
    (hpiece : info.pieceLength ≠ 0) (hfast : ∀ i ∈ t.ctl.peerAllowedFast p, i < info.numPieces) :
    (t.expectingChunks p = true ↔ t.ExpectsChunks p) ↔
      (t.ctl.interested p = true → (∃ r, r ∈ t.reqs.requests p) → t.ctl.peerChoking p = true →
        (∀ i, i ∉ t.ctl.peerAllowedFast p) ∨
        (∃ i ∈ t.ctl.peerAllowedFast p, ∃ r ∈ t.reqs.requests p, t.pieceIndexOfRequestIndex r = i) ∧
        ∃ i ∈ t.ctl.peerAllowedFast p, ∀ r ∈ t.reqs.requests p,
          t.pieceIndexOfRequestIndex r ≠ i) := by
  have hcount : (∃ i ∈ t.ctl.peerAllowedFast p, t.requestsInPiece p i = 0) ↔
      ∃ i ∈ t.ctl.peerAllowedFast p, ∀ r ∈ t.reqs.requests p, t.pieceIndexOfRequestIndex r ≠ i :=
    exists_congr fun i => and_congr_right fun hi =>
      requestsInPiece_eq_zero_iff hinfo hreg hpiece (hfast i hi)
  rw [expectingChunks_iff, ExpectsChunks, hcount]
  by_cases hinterested : t.ctl.interested p = true
  · by_cases hsome : ∃ r, r ∈ t.reqs.requests p
    · by_cases hchoking : t.ctl.peerChoking p = true
      · simp only [hinterested, hsome, hchoking, true_and, true_implies, Bool.true_eq_false,
          false_or]
        constructor
        · intro h
          by_cases hnone : ∀ i, i ∉ t.ctl.peerAllowedFast p
          · exact .inl hnone
          -- an allowed-fast piece has a request, or it is one without
          obtain ⟨i, hi⟩ := not_forall_not.mp hnone
          by_cases hr : ∃ r ∈ t.reqs.requests p, t.pieceIndexOfRequestIndex r = i
          · obtain ⟨r, hr, rfl⟩ := hr
            exact .inr ⟨⟨_, hi, r, hr, rfl⟩, h.mpr ⟨r, hr, hi⟩⟩
          · have hfree := fun r hmem heq => hr ⟨r, hmem, heq⟩
            obtain ⟨r, hmem, hin⟩ := h.mp ⟨i, hi, hfree⟩
            exact .inr ⟨⟨_, hin, r, hmem, rfl⟩, i, hi, hfree⟩
        · rintro (hnone | ⟨⟨i, hi, r, hr, rfl⟩, hfree⟩)
          · exact ⟨fun ⟨i, hi, _⟩ => (hnone i hi).elim, fun ⟨_, _, hi⟩ => (hnone _ hi).elim⟩
          · exact ⟨fun _ => ⟨r, hr, hi⟩, fun _ => hfree⟩
      · simp [hinterested, hsome, hchoking]
    · simp [hsome]
  · simp [hinterested]

/-- Two pieces of one chunk each. -/
def pairInfo : Info where
  pieceLength := 4
  fileLengths := [8]
  numPieces := 2
  files_ne := smallInfo.files_ne
  valid := by decide

/-- A peer that chokes us, with its requests and its allowed-fast pieces. -/
def chokedBy (requests fast : List Nat) : Torrent :=
  { init smallConfig emptyStorage with
    info := some pairInfo
    reqs.requests := fun _ => requests.foldl OrderedBitmap.add OrderedBitmap.empty
    ctl.interested := fun _ => true
    ctl.peerChoking := fun _ => true
    ctl.peerAllowedFast := fun _ => Bitmap.ofList fast }

theorem expectingChunks_right_chokedBy :
    (chokedBy [0] [0, 1]).expectingChunks 1 = true ∧ (chokedBy [0] [0, 1]).ExpectsChunks 1 := by
  have hright := (expectingChunks_right_iff (chokedBy [0] [0, 1]) 1 pairInfo rfl (by decide)
    (by decide) (by decide)).mpr fun _ _ _ => .inr ⟨⟨0, by decide, 0, by decide, by decide⟩,
      1, by decide, by decide⟩
  have hexpecting : (chokedBy [0] [0, 1]).expectingChunks 1 = true := by decide
  exact ⟨hexpecting, hright.mp hexpecting⟩

/-- A chunk of an allowed-fast piece is requested, and not expected; a chunk of another piece is
requested, and expected. -/
theorem allowed_fast_misjudged :
    ((chokedBy [0] [0]).ExpectsChunks 1 ∧ (chokedBy [0] [0]).expectingChunks 1 = false) ∧
      (¬ (chokedBy [0] [1]).ExpectsChunks 1 ∧ (chokedBy [0] [1]).expectingChunks 1 = true) := by
  refine ⟨⟨⟨rfl, ⟨0, by decide⟩, .inr ⟨0, by decide, by decide⟩⟩, by decide⟩, ?_,
    by decide⟩
  rintro ⟨-, -, hfree | ⟨r, hr, hfast⟩⟩
  · cases hfree
  · have hzero : r = 0 := (OrderedBitmap.mem_add.mp hr).resolve_right (Bitmap.not_mem_empty r)
    subst hzero
    exact absurd hfast (by decide)

end ReliableBT
