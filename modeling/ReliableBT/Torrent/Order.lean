import ReliableBT.Torrent.Runs

/-!
# What the piece request order records (`requesting.go`, `torrent-piece-request-order.go`)

The entry of a piece in the client's piece request order is a copy of
`requestStrategyPieceOrderState`: the pure priority, whether the piece is partially downloaded, and
the availability. This module says what of the torrent each part is computed from, so that a change
elsewhere can be seen to leave the entry of a piece right.

* `piecePartiallyDownloaded_congr`: the flag depends on the completion of the piece and on the dirty
  chunks that are its own. `roaringBitmapRangeCardinality` counts by rank, and in a regular torrent
  the ranks of two neighbouring pieces bound the piece's chunks.
* `purePriority_congr`: the priority depends on the files of the piece, on its own priority, and on
  whether it is among the pieces of the readers.
* `mem_now` and `mem_readahead`: which pieces those are. Moving a reader changes nothing outside of
  its old and its new range (`readerPieces_moved`).
-/

open List ReliableBT.Bitmap Nat Option Prod Function

namespace ReliableBT

open Torrent

variable {t t' : Torrent} {info : Info} {cs i j : Nat}

/-! ## Partially downloaded -/

theorem Bitmap.rank_add (bm : Bitmap) {a b : Nat} (h : a ≤ b) :
    bm.rank b = bm.rank a + (bm.rangeElems (a + 1) (b + 1)).length := by
  unfold rank rangeElems
  induction bm.elems with
  | nil => rfl
  | cons k l ih =>
    rw [filter_cons, filter_cons, filter_cons]
    by_cases ha : k ≤ a
    · have hb : k ≤ b := ha.trans h
      have hout : ¬ a + 1 ≤ k := by omega
      simp only [ha, hb, hout, decide_true, decide_false, Bool.false_and, if_true, length_cons, ih]
      simp only [Bool.false_eq_true, if_false]
      omega
    · by_cases hb : k ≤ b
      · have hlo : a + 1 ≤ k := by omega
        have hhi : k < b + 1 := by omega
        simp only [ha, hb, hlo, hhi, decide_true, decide_false, Bool.and_true, if_true,
          length_cons, ih]
        simp only [Bool.false_eq_true, if_false]
        omega
      · have hhi : ¬ k < b + 1 := by omega
        simp only [ha, hb, hhi, decide_false, Bool.and_false, Bool.false_eq_true, if_false, ih]

theorem Bitmap.rank_eq (bm : Bitmap) (b : Nat) : bm.rank b = (bm.rangeElems 0 (b + 1)).length := by
  unfold rank rangeElems
  congr 1
  refine filter_congr fun k _ => ?_
  have hiff : k ≤ b ↔ 0 ≤ k ∧ k < b + 1 := by omega
  rw [← Bool.decide_and, decide_eq_decide]
  exact hiff

/-- `roaringBitmapRangeCardinality` as it is, with its `uint64` result. -/
def rangeCardinality (bm : Bitmap) (start stop : Nat) : Nat :=
  let card : Int := bm.rank (u32 (stop + 2 ^ 32 - 1))
  let card := if start ≠ 0 then card - bm.rank (start - 1) else card
  (card % 2 ^ 64).toNat

theorem roaringBitmapRangeCardinality_eq_mod (bm : Bitmap) (lo hi : Nat) :
    roaringBitmapRangeCardinality bm lo hi = rangeCardinality bm lo hi % 2 ^ 32 := by
  unfold roaringBitmapRangeCardinality rangeCardinality
  dsimp only
  split_ifs <;> omega

variable {lo hi : Nat} {readers : List (Nat × Nat × Nat)} {id : Nat} {new : Nat × Nat}

/-- The cardinality of a range that is not empty is what it is called. The range may end at
`2 ^ 32`, for which the source has a zero. -/
theorem rangeCardinality_eq (bm : Bitmap) {stop : Nat} (hlt : lo < hi) (hhi : hi ≤ 2 ^ 32)
    (hstop : u32 stop = u32 hi) :
    rangeCardinality bm lo stop = (bm.rangeElems lo hi).length % 2 ^ 64 := by
  obtain ⟨b, rfl⟩ : ∃ b, hi = b + 1 := ⟨hi - 1, by omega⟩
  have hlast : u32 (stop + 2 ^ 32 - 1) = b := by
    unfold u32 at hstop ⊢
    omega
  unfold rangeCardinality
  simp only [hlast]
  by_cases hlo : lo = 0
  · subst hlo
    simp only [ne_eq, not_true_eq_false, if_false, rank_eq]
    omega
  · obtain ⟨a, rfl⟩ : ∃ a, lo = a + 1 := ⟨lo - 1, by omega⟩
    have hsplit := bm.rank_add (show a ≤ b by omega)
    simp only [ne_eq, hlo, not_false_eq_true, if_true, Nat.add_sub_cancel, hsplit]
    omega

theorem rangeCardinality_eq_zero_iff (bm : Bitmap) (hlt : lo < hi) (hhi : hi ≤ 2 ^ 32) :
    rangeCardinality bm lo hi = 0 ↔ ∀ r ∈ bm, ¬ (lo ≤ r ∧ r < hi) := by
  have hmem : ∀ r, r ∈ bm.rangeElems lo hi ↔ r ∈ bm ∧ lo ≤ r ∧ r < hi := by
    simp [rangeElems, mem_elems]
  -- the members are different numbers below `hi`, so the count does not wrap
  have hlen := ((bm.nodup.filter _).subperm
    fun r hr => List.mem_range.mpr ((hmem r).mp hr).2.2).length_le
  rw [List.length_range] at hlen
  rw [rangeCardinality_eq bm hlt hhi rfl, Nat.mod_eq_of_lt (by unfold rangeElems; omega),
    length_eq_zero_iff, eq_nil_iff_forall_not_mem]
  simp only [hmem, not_and]

theorem roaringBitmapRangeCardinality_eq (bm : Bitmap) (hlt : lo < hi) (hhi : hi ≤ 2 ^ 32) :
    roaringBitmapRangeCardinality bm lo hi = (bm.rangeElems lo hi).length % 2 ^ 32 := by
  rw [roaringBitmapRangeCardinality_eq_mod, rangeCardinality_eq bm hlt hhi rfl]
  omega

theorem Info.Regular.dirty_congr (h : info.Regular cs) (hj : j < info.numPieces)
    (hpos : 0 < info.chunksPerRegularPiece cs) {d d' : Bitmap}
    (hsame : ∀ r, r / info.chunksPerRegularPiece cs = j → (r ∈ d ↔ r ∈ d')) :
    roaringBitmapRangeCardinality d (info.pieceRequestIndexOffset cs j)
        (info.pieceRequestIndexOffset cs (j + 1)) =
      roaringBitmapRangeCardinality d' (info.pieceRequestIndexOffset cs j)
        (info.pieceRequestIndexOffset cs (j + 1)) := by
  have hle : (j + 1) * info.chunksPerRegularPiece cs ≤
      info.numPieces * info.chunksPerRegularPiece cs := mul_le_mul_right _ hj
  have hreg := h.2
  have hlt : j * info.chunksPerRegularPiece cs < (j + 1) * info.chunksPerRegularPiece cs := by
    rw [add_mul, one_mul]
    omega
  have hrange : d.rangeElems (j * info.chunksPerRegularPiece cs)
      ((j + 1) * info.chunksPerRegularPiece cs) =
      d'.rangeElems (j * info.chunksPerRegularPiece cs) ((j + 1) * info.chunksPerRegularPiece cs) :=
    rangeElems_congr fun r hlo hhi => hsame r (Nat.div_eq_of_lt_le hlo hhi)
  rw [h.offset_eq (le_of_lt hj), h.offset_eq hj,
    roaringBitmapRangeCardinality_eq d hlt (by omega),
    roaringBitmapRangeCardinality_eq d' hlt (by omega), hrange]

theorem piecePartiallyDownloaded_congr (hinfo : t'.info = t.info) (hcfg : t'.cfg = t.cfg)
    (hcomplete : j ∈ t'.comp.completed ↔ j ∈ t.comp.completed)
    (hdirty : t'.numDirtyChunks j = t.numDirtyChunks j) :
    t'.piecePartiallyDownloaded j = t.piecePartiallyDownloaded j := by
  have hnum : t'.pieceNumChunks j = t.pieceNumChunks j := by
    unfold pieceNumChunks
    rw [hinfo, hcfg]
  have hdone : t'.pieceComplete j = t.pieceComplete j := decide_eq_decide.mpr hcomplete
  unfold piecePartiallyDownloaded pieceAllDirty
  rw [hdone, hdirty, hnum]

theorem piecePartiallyDownloaded_of_ne (hinfo : t.info = some info)
    (hreg : info.Regular t.cfg.chunkSize) (hj : j < info.numPieces) (hne : j ≠ i) (d : Bitmap)
    (w : Writes)
    (hsame : ∀ r, r / info.chunksPerRegularPiece t.cfg.chunkSize ≠ i ∨
      info.chunksPerRegularPiece t.cfg.chunkSize = 0 → (r ∈ d ↔ r ∈ t.dirtyChunks)) :
    { t with dirtyChunks := d, writes := w }.piecePartiallyDownloaded j =
      t.piecePartiallyDownloaded j := by
  refine piecePartiallyDownloaded_congr rfl rfl Iff.rfl ?_
  unfold numDirtyChunks pieceRequestIndexOffset
  simp only [hinfo, map_some, getD_some]
  rcases Nat.eq_zero_or_pos (info.chunksPerRegularPiece t.cfg.chunkSize) with hz | hpos
  · rw [ext_mem fun r => hsame r (.inr hz)]
  · exact hreg.dirty_congr hj hpos fun r hr => hsame r (.inl (hr ▸ hne))

/-! ## Priority -/

theorem purePriority_congr (hinfo : t'.info = t.info)
    (hfile : ∀ k ∈ t.pieceFiles j, t'.prio.file k = t.prio.file k)
    (hnow : j ∈ t'.prio.now ↔ j ∈ t.prio.now)
    (hahead : j ∈ t'.prio.readahead ↔ j ∈ t.prio.readahead)
    (hpiece : t'.prio.piece j = t.prio.piece j) : t'.purePriority j = t.purePriority j := by
  have hfiles : t'.pieceFiles j = t.pieceFiles j := by
    unfold pieceFiles
    rw [hinfo]
  unfold purePriority
  rw [hfiles, hpiece, foldl_ext _ _ _ fun ret k hk => by rw [hfile k hk]]
  simp only [hnow, hahead]

theorem purePriority_piece (hne : j ≠ i) (prio : PiecePriority) :
    { t with prio.piece := update t.prio.piece i prio }.purePriority j =
      t.purePriority j :=
  purePriority_congr rfl (fun _ _ => rfl) Iff.rfl Iff.rfl (update_of_ne hne _ _)

theorem purePriority_file (hinfo : t.info = some info) (hpl : info.pieceLength ≠ 0)
    (hlt : j < info.numPieces) {k : Nat}
    (hj : j ∉ Set.Ico (info.beginPieceIndex k) (info.endPieceIndex k)) (prio : PiecePriority) :
    { t with prio.file := update t.prio.file k prio }.purePriority j =
      t.purePriority j := by
  refine purePriority_congr rfl (fun k' hk' => ?_) Iff.rfl Iff.rfl rfl
  refine update_of_ne (fun heq => ?_) _ _
  subst heq
  simp only [pieceFiles, hinfo, map_some, getD_some] at hk'
  exact hj (Info.pieceFiles_window hpl hlt hk')

theorem purePriority_none (hfile : ∀ k, t.prio.file k = .none) (hnow : i ∉ t.prio.now)
    (hahead : i ∉ t.prio.readahead) (hpiece : t.prio.piece i = .none) :
    t.purePriority i = .none := by
  have hfiles : (t.pieceFiles i).foldl
      (fun (ret : PiecePriority) k => ret.raise (t.prio.file k)) .none = .none := by
    refine foldl_keeps (I := (· = PiecePriority.none)) rfl fun ret hret k _ => ?_
    rw [hret, hfile k]
    rfl
  unfold purePriority
  dsimp only
  rw [hfiles, if_neg hnow, if_neg hahead, hpiece]
  rfl

/-! ## The pieces of the readers -/

/-- The piece is in the range of a reader. -/
def Within (i : Nat) (range : Nat × Nat) : Prop := range.1 ≤ i ∧ i < range.2

theorem readerPiecePriorities_snoc (readers : List (Nat × Nat × Nat)) (r : Nat × Nat × Nat) :
    readerPiecePriorities (readers ++ [r]) =
      if r.2.1 < r.2.2 then
        ((readerPiecePriorities readers).1.add r.2.1,
          (readerPiecePriorities readers).2.union (ofList (range' (r.2.1 + 1) (r.2.2 - r.2.1 - 1))))
      else readerPiecePriorities readers := by
  unfold readerPiecePriorities
  rw [foldl_append]
  rfl

theorem mem_now (readers : List (Nat × Nat × Nat)) (i : Nat) :
    i ∈ (readerPiecePriorities readers).1 ↔ ∃ r ∈ readers, r.2.1 < r.2.2 ∧ i = r.2.1 := by
  induction readers using reverseRecOn with
  | nil => simp [readerPiecePriorities]
  | append_singleton readers r ih =>
    rw [readerPiecePriorities_snoc]
    split_ifs with hr
    · simp [ih, hr, or_and_right, exists_or, or_comm]
    · simp [ih, hr, or_and_right, exists_or]

theorem mem_readahead (readers : List (Nat × Nat × Nat)) (i : Nat) :
    i ∈ (readerPiecePriorities readers).2 ↔ ∃ r ∈ readers, r.2.1 < i ∧ i < r.2.2 := by
  induction readers using reverseRecOn with
  | nil => simp [readerPiecePriorities]
  | append_singleton readers r ih =>
    rw [readerPiecePriorities_snoc]
    split_ifs with hr
    · have hrange : r.2.1 + 1 ≤ i ∧ i < r.2.1 + 1 + (r.2.2 - r.2.1 - 1) ↔
          r.2.1 < i ∧ i < r.2.2 := by omega
      have hnew : i ∈ range' (r.2.1 + 1) (r.2.2 - r.2.1 - 1) ↔ r.2.1 < i ∧ i < r.2.2 := by
        rw [mem_range'_1, hrange]
      simp [ih, hnew, or_and_right, exists_or, -mem_range'_1]
    · have hrange : ¬ (r.2.1 < i ∧ i < r.2.2) := by omega
      simp [ih, hrange, or_and_right, exists_or]

theorem lookup_of_mem {r : Nat × Nat × Nat} (hnodup : (readers.map fst).Nodup)
    (hr : r ∈ readers) : readers.lookup r.1 = some r.2 := by
  induction readers with
  | nil => cases hr
  | cons a readers ih =>
    rw [map_cons, nodup_cons] at hnodup
    rcases mem_cons.mp hr with rfl | hr
    · exact lookup_cons_self
    · have hne : r.1 ≠ a.1 := fun heq => hnodup.1 (heq ▸ mem_map_of_mem hr)
      rw [lookup_cons, beq_eq_false_iff_ne.mpr hne]
      exact ih hnodup.2 hr

/-- A reader moves. What is in the range of some reader stays so, and what is not stays so too,
outside of the old and the new range; inside of them, if they are the same. -/
theorem readers_moved {P : Nat × Nat → Prop} (hP : ∀ range, P range → Within i range)
    (hnodup : (readers.map fst).Nodup) (hi : (readers.lookup id).getD (0, 0) = new ∨
      (¬ Within i ((readers.lookup id).getD (0, 0)) ∧ ¬ Within i new)) :
    (∃ r ∈ (id, new) :: readers.filter fun r => decide (r.1 ≠ id), P r.2) ↔
      ∃ r ∈ readers, P r.2 := by
  constructor
  · rintro ⟨r, hr, hPr⟩
    rcases mem_cons.mp hr with rfl | hr
    · rcases hi with hsame | ⟨-, hnew⟩
      · -- the reader was there before, for its range is not empty
        cases hfind : readers.lookup id with
        | none =>
          rw [hfind, getD_none] at hsame
          have hin := hP new hPr
          rw [← hsame] at hin
          exact absurd hin.2 (not_lt_zero i)
        | some range =>
          rw [hfind, getD_some] at hsame
          obtain ⟨l₁, l₂, hsplit, -⟩ := lookup_eq_some_iff.mp hfind
          refine ⟨(id, range), ?_, hsame ▸ hPr⟩
          rw [hsplit]
          simp
      · exact absurd (hP new hPr) hnew
    · exact ⟨r, (mem_filter.mp hr).1, hPr⟩
  · rintro ⟨r, hr, hPr⟩
    by_cases hid : r.1 = id
    · have hfind := lookup_of_mem hnodup hr
      rw [hid] at hfind
      rw [hfind, getD_some] at hi
      rcases hi with hsame | ⟨hold, -⟩
      · exact ⟨(id, new), mem_cons_self, hsame ▸ hPr⟩
      · exact absurd (hP r.2 hPr) hold
    · exact ⟨r, mem_cons_of_mem _ (mem_filter.mpr ⟨hr, decide_eq_true hid⟩), hPr⟩

theorem nodup_moved (hnodup : (readers.map fst).Nodup) (id : Nat) (new : Nat × Nat) :
    (((id, new) :: readers.filter fun r => decide (r.1 ≠ id)).map fst).Nodup := by
  rw [map_cons, nodup_cons]
  refine ⟨fun hmem => ?_, (filter_sublist.map fst).nodup hnodup⟩
  obtain ⟨r, hr, hid⟩ := mem_map.mp hmem
  exact of_decide_eq_true (mem_filter.mp hr).2 hid

theorem readerPieces_moved (hnodup : (readers.map fst).Nodup)
    (hi : (readers.lookup id).getD (0, 0) = new ∨
      (¬ Within i ((readers.lookup id).getD (0, 0)) ∧ ¬ Within i new)) :
    let moved := (id, new) :: readers.filter fun r => decide (r.1 ≠ id)
    (i ∈ (readerPiecePriorities moved).1 ↔ i ∈ (readerPiecePriorities readers).1) ∧
      (i ∈ (readerPiecePriorities moved).2 ↔ i ∈ (readerPiecePriorities readers).2) := by
  intro moved
  rw [mem_now, mem_now, mem_readahead, mem_readahead]
  refine ⟨?_, ?_⟩
  · refine readers_moved (P := fun range => range.1 < range.2 ∧ i = range.1) ?_ hnodup hi
    rintro range ⟨hlt, rfl⟩
    exact ⟨le_refl _, hlt⟩
  · refine readers_moved (P := fun range => range.1 < i ∧ i < range.2) ?_ hnodup hi
    rintro range ⟨hlo, hhi⟩
    exact ⟨le_of_lt hlo, hhi⟩

/-- `_readerNowPieces` and `_readerReadaheadPieces` are those of the readers. -/
def ReadersRight (prio : Prio) : Prop :=
  prio.now = (readerPiecePriorities prio.readers).1 ∧
    prio.readahead = (readerPiecePriorities prio.readers).2 ∧ (prio.readers.map fst).Nodup

namespace ReadersRight

theorem updated (prio : Prio) {readers : List (Nat × Nat × Nat)}
    (hnodup : (readers.map fst).Nodup) : ReadersRight { prio with
      readers := readers
      now := (readerPiecePriorities readers).1
      readahead := (readerPiecePriorities readers).2 } := ⟨rfl, rfl, hnodup⟩

theorem moved {prio : Prio} (h : ReadersRight prio) {id : Nat} {new : Nat × Nat}
    (hsame : (prio.readers.lookup id).getD (0, 0) = new) :
    ReadersRight { prio with
      readers := (id, new) :: prio.readers.filter fun r => decide (r.1 ≠ id) } := by
  obtain ⟨hnow, hahead, hnodup⟩ := h
  refine ⟨?_, ?_, nodup_moved hnodup id new⟩
  · ext i
    rw [hnow]
    exact (readerPieces_moved hnodup (.inl hsame)).1.symm
  · ext i
    rw [hahead]
    exact (readerPieces_moved hnodup (.inl hsame)).2.symm

end ReadersRight

theorem purePriority_readers (h : ReadersRight t.prio)
    (hj : j ∉ Set.Ico (t.readerPieces id).1 (t.readerPieces id).2 ∪ Set.Ico new.1 new.2) :
    { t with prio.readers := (id, new) ::
        t.prio.readers.filter fun r => decide (r.1 ≠ id) }.updateReaderPieces.purePriority j =
      t.purePriority j := by
  obtain ⟨hnow, hahead, hnodup⟩ := h
  rw [Set.mem_union, not_or] at hj
  obtain ⟨hsameNow, hsameAhead⟩ := readerPieces_moved hnodup (.inr hj)
  refine purePriority_congr rfl (fun _ _ => rfl) ?_ ?_ rfl
  · rw [hnow]
    exact hsameNow
  · rw [hahead]
    exact hsameAhead

end ReliableBT
