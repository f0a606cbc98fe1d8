import ReliableBT.Storage.File
import ReliableBT.Torrent.Partition

/-!
# What a complete piece of the file storage is worth (`storage/file-piece.go`,
`storage/file-misc.go`)

Which pieces are complete is recorded apart from the data, so the record can say more than the files
have: they may have been removed or cut since. `Completion` therefore looks at the files again
before it says that a piece is complete. `extentCompleteRequiredLengths` walks along the file
lengths to find out how long each of the piece's files has to be, and the sizes are compared.

This walk is not the one that a read takes through `segments.Index`. It leaves out the files
without bytes, while a read goes through those strictly inside the piece and stops if one of them is
missing. Lengths are those of a torrent of less than `2 ^ 63` bytes.

* `required_eq_locate`: apart from that, both walks agree.
* `visitParts_readPart_short`: a read that comes across a missing file ends there.
* `complete_readable_iff`: a piece that is reported to be complete can be read as a whole iff the
  files without bytes strictly inside of it exist.
-/

open List Nat Option

namespace ReliableBT.Storage

open Segments

/-- `Completion` -/
structure Completion where
  complete : Bool
  ok : Bool
  deriving DecidableEq, Repr

/-- What `PieceCompletion.Get` returns: the record, and whether there is an error. -/
structure Recorded where
  c : Completion
  failed : Bool
  deriving DecidableEq, Repr

/-- The loop of `extentCompleteRequiredLengths`, which panics at the end of the files. -/
def requiredLengths : List ℕ → ℕ → ℕ → ℕ → Option (List (ℕ × ℕ))
  | [], _, _, _ => none
  | l :: lens, i, off, n =>
    if l ≤ off then requiredLengths lens (i + 1) (off - l) n
    else
      let n1 := if l < off + n then l - off else n
      if n - n1 = 0 then some [(i, off + n1)]
      else (requiredLengths lens (i + 1) 0 (n - n1)).map ((i, off + n1) :: ·)

/-- `extentCompleteRequiredLengths` -/
def extentCompleteRequiredLengths (lens : List ℕ) (off n : ℕ) : Option (List (ℕ × ℕ)) :=
  if n = 0 then some [] else requiredLengths lens 0 off n

/-- A file has the length that it has to have. -/
def hasLength (fs : Fs) (files : List TorrentFile) (fi : ℕ × ℕ) : Bool :=
  match files[fi.1]? with
  | none => false
  | some f =>
    match fs f.path with
    | none => false
    | some contents => decide (fi.2 ≤ contents.length)

/-- `filePieceImpl.Completion` of the piece at `off` with `n` bytes: the result, and what is
recorded by `Set` then, if anything; or a panic. -/
def filePieceCompletion (fs : Fs) (files : List TorrentFile) (off n : ℕ) (got : Recorded) :
    Option (Completion × Option Bool) :=
  if got.failed then some ({ got.c with ok := false }, none)
  else if got.c.complete then
    (extentCompleteRequiredLengths (lengths files) off n).map fun required =>
      if required.all (hasLength fs files) then (got.c, none)
      else ({ got.c with complete := false }, some false)
  else some (got.c, none)

/-- `io.SectionReader.ReadAt` of the `n` bytes at `base`, into a buffer of `len` bytes -/
def sectionReadAt (read : ℕ → ℕ → List UInt8 × Option FileError) (base n len off : ℕ) :
    List UInt8 × Option FileError :=
  if n ≤ off then ([], some .eof)
  else if n - off < len then
    let r := read (n - off) (base + off)
    (r.1, r.2.or (some .eof))
  else read len (base + off)

/-- `ReadAt` of `filePieceImpl`, for the piece at `off` with `n` bytes, of the whole piece -/
def readPiece (fs : Fs) (files : List TorrentFile) (off n : ℕ) : List UInt8 × Option FileError :=
  sectionReadAt (readAt fs files) off n n 0

/-! ## The two walks -/

variable {lens : List ℕ} {i off n j len : ℕ} {parts : List (ℕ × Extent)} {fs : Fs}
  {files : List TorrentFile} {info : Info}

/-- What is required of the parts of a walk: those without bytes are left out. -/
def requiredParts (parts : List (ℕ × Extent)) : List (ℕ × ℕ) :=
  (parts.filter fun part => decide (part.2.length ≠ 0)).map fun part => (part.1, part.2.stop)

/-- From the segment on that the extent starts in, the loop requires the parts of the extent. -/
theorem requiredLengths_tiles (h : Tiles lens i off n parts) :
    (if n = 0 then some [] else requiredLengths (lens.drop i) i (off - offset lens i) n) =
      some (requiredParts parts) := by
  induction h with
  | done => rfl
  | @tile i p l start n len parts hl hp hin hempty hmore hnext rest ih =>
    obtain ⟨hi, hget⟩ := List.getElem?_eq_some_iff.mp hl
    have hstart : p - offset lens i = start := by omega
    have hafter : p + n - offset lens (i + 1) = start + n - l := by
      rw [offset_succ hl]
      omega
    rw [hafter] at ih
    rw [if_neg (by omega), hstart, drop_eq_getElem_cons hi, hget, requiredLengths]
    split
    · -- a file without bytes
      obtain ⟨rfl, rfl, rfl⟩ : n = 0 ∧ l = 0 ∧ start = 0 := by omega
      rw [zero_add] at hmore ⊢
      rw [if_neg hmore.ne'] at ih
      exact ih
    · have hn : n ≠ 0 := by omega
      have hn1 : (if l < start + (n + len) then l - start else n + len) = n := by
        split <;> omega
      rw [hn1]
      dsimp only
      rw [Nat.add_sub_cancel_left]
      have hcons : requiredParts ((i, ⟨start, n⟩) :: parts) =
          (i, start + n) :: requiredParts parts := by
        simp [requiredParts, hn, Extent.stop]
      rw [hcons]
      by_cases hlen : len = 0
      · rw [if_pos hlen] at ih ⊢
        rw [← some.inj ih]
      · have hend : start + n - l = 0 := by omega
        rw [if_neg hlen, hend] at ih
        rw [if_neg hlen, ih]
        rfl

/-- The loop does nothing with the files in front of the extent. -/
theorem requiredLengths_drop (hoff : offset lens i ≤ off) :
    requiredLengths lens 0 off n = requiredLengths (lens.drop i) i (off - offset lens i) n := by
  induction i with
  | zero => rfl
  | succ i ih =>
    rw [ih ((offset_mono (le_succ i)).trans hoff)]
    cases hd : lens.drop i with
    | nil =>
      rw [← tail_drop, hd]
      rfl
    | cons l rest =>
      obtain ⟨hl, hd'⟩ := getElem?_of_drop hd
      have hsucc := offset_succ hl
      rw [requiredLengths, if_pos (by omega), hd', hsucc, sub_add_eq]

theorem extentCompleteRequiredLengths_tiles (h : Tiles lens i off n parts)
    (hi : 0 < n → offset lens i ≤ off) :
    extentCompleteRequiredLengths lens off n = some (requiredParts parts) := by
  rw [← requiredLengths_tiles h, extentCompleteRequiredLengths]
  split
  · rfl
  · next hn => exact requiredLengths_drop (hi (pos_of_ne_zero hn))

/-- A callback that collects the parts it is given. -/
def collect (parts : List (ℕ × Extent)) (i : ℕ) (e : Extent) : List (ℕ × Extent) × Bool :=
  (parts ++ [(i, e)], true)

theorem visitParts_collect (parts acc : List (ℕ × Extent)) :
    visitParts collect parts acc = acc ++ parts := by
  induction parts generalizing acc with
  | nil => exact (append_nil acc).symm
  | cons part parts ih =>
    rw [visitParts, collect]
    exact (ih _).trans (append_assoc ..)

/-- **Both walks agree**: inside the torrent, `extentCompleteRequiredLengths` does not panic and
requires the ends of the parts with bytes that `Locate` goes through. -/
theorem required_eq_locate (lens : List ℕ) (off n : ℕ) (hfit : off + n ≤ lens.sum) :
    extentCompleteRequiredLengths lens off n =
      some (requiredParts (locate (newIndex lens) ⟨off, n⟩ collect []).1) := by
  obtain ⟨i, parts, htiles, hfirst, hlocate⟩ := locate_tiles hfit
  rw [hlocate, visitParts_collect, nil_append]
  exact extentCompleteRequiredLengths_tiles htiles fun hn => (hfirst hn).1

theorem required_eq_locate_emptyFile :
    1 + 4 ≤ [3, 0, 2].sum ∧
      extentCompleteRequiredLengths [3, 0, 2] 1 4 =
        some (requiredParts (locate (newIndex [3, 0, 2]) ⟨1, 4⟩ collect []).1) :=
  ⟨by decide, required_eq_locate [3, 0, 2] 1 4 (by decide)⟩

theorem long_enough (hall : (requiredParts parts).all (hasLength fs files) = true) {e : Extent}
    (hj : (j, e) ∈ parts) (he : e.length ≠ 0) {f : TorrentFile} (hf : files[j]? = some f) :
    ∃ c, fs f.path = some c ∧ e.stop ≤ c.length := by
  have hmem : (j, e.stop) ∈ requiredParts parts :=
    mem_map.mpr ⟨(j, e), mem_filter.mpr ⟨hj, decide_eq_true he⟩, rfl⟩
  have hlen := all_eq_true.mp hall _ hmem
  rw [hasLength, hf] at hlen
  dsimp only at hlen
  split at hlen
  · cases hlen
  · next c hc => exact ⟨c, hc, of_decide_eq_true hlen⟩

/-! ## Reads that stop -/

theorem readFileLoop_short {contents : List UInt8} {length fuel : ℕ}
    (h : (readFileLoop contents length fuel len off).2 ≠ none) :
    (readFileLoop contents length fuel len off).1.length < len := by
  induction fuel generalizing len off with
  | zero => exact absurd rfl h
  | succ fuel ih =>
    rw [readFileLoop] at h ⊢
    by_cases hgo : off < length ∧ len ≠ 0
    · rw [if_pos hgo] at h ⊢
      dsimp only at h ⊢
      by_cases hnil : (osReadAt contents len off).1 = []
      · rw [if_pos hnil]
        exact pos_of_ne_zero hgo.2
      · rw [if_neg hnil] at h ⊢
        have hrest := ih h
        rw [length_append]
        omega
    · rw [if_neg hgo] at h
      exact absurd rfl h

theorem readFileLoop_le (contents : List UInt8) (length fuel len off : ℕ) :
    (readFileLoop contents length fuel len off).1.length ≤ len := by
  induction fuel generalizing len off with
  | zero => exact zero_le len
  | succ fuel ih =>
    have hone : (osReadAt contents len off).1.length ≤ len := length_take_le _ _
    rw [readFileLoop]
    split
    · dsimp only
      split
      · exact zero_le len
      · have hrest := ih (len - (osReadAt contents len off).1.length)
          (off + (osReadAt contents len off).1.length)
        rw [length_append]
        omega
    · exact zero_le len

theorem readFileAt_le (fs : Fs) (file : TorrentFile) (len off : ℕ) :
    (readFileAt fs file len off).1.length ≤ len ∧
      ((readFileAt fs file len off).2 ≠ none → len ≠ 0 →
        (readFileAt fs file len off).1.length < len) := by
  rw [readFileAt]
  split
  · exact ⟨zero_le len, fun _ hlen => pos_of_ne_zero hlen⟩
  · next contents _ =>
    dsimp only
    generalize hlen' : (if file.length - off < len then file.length - off else len) = len'
    have hle : len' ≤ len := by
      split at hlen' <;> omega
    refine ⟨(readFileLoop_le contents _ len' len' off).trans hle, fun herr _ => ?_⟩
    exact lt_of_lt_of_le (readFileLoop_short herr) hle

theorem visitParts_readPart_short {p : ℕ} {parts : List (ℕ × Extent)}
    (h : Tiles (lengths files) i p len parts) {e : Extent} (hj : (j, e) ∈ parts) {f : TorrentFile}
    (hf : files[j]? = some f) (hmissing : fs f.path = none) (acc : List UInt8) (left : ℕ) :
    (visitParts (readPart fs files) parts ⟨acc, left, none⟩).bytes.length < acc.length + len := by
  induction h generalizing acc left with
  | done => cases hj
  | @tile i p l start n len parts hl hp hin hempty hmore hnext rest ih =>
    obtain ⟨g, hg, -⟩ := exists_file hl
    obtain ⟨hle, hshort⟩ := readFileAt_le fs g n start
    rw [visitParts, readPart, hg]
    dsimp only
    cases herr : (readFileAt fs g n start).2 with
    | some err =>
      -- the walk ends here, and even a part without bytes leaves something to be read
      dsimp only [isNone_some]
      rw [length_append]
      by_cases hn : n = 0
      · omega
      · have := hshort (by rw [herr]; exact some_ne_none err) hn
        omega
    | none =>
      dsimp only [isNone_none]
      rcases mem_cons.mp hj with heq | hrest
      · -- the missing file is this one, which cannot be read without an error
        obtain ⟨rfl, rfl⟩ := Prod.mk.inj heq
        obtain rfl : f = g := some.inj (hf.symm.trans hg)
        rw [readFileAt, hmissing] at herr
        cases herr
      · have := ih hrest (acc ++ (readFileAt fs g n start).1)
          (left - (readFileAt fs g n start).1.length)
        rw [length_append] at this
        omega

/-! ## Pieces -/

theorem piece_within (hi : i < info.numPieces) :
    i * info.pieceLength + info.metaPieceLength i ≤ info.fileLengths.sum := by
  by_cases hp : info.pieceLength = 0
  · have htotal : info.totalLength = 0 := by
      have hvalid := info.valid
      rw [validateInfo, if_pos hp] at hvalid
      exact of_decide_eq_true hvalid
    rw [Info.metaPieceLength, htotal, hp]
    simp
  · rw [Info.piece_end hp hi]
    exact min_le_right _ _

/-- All bytes are read, with no other error than `io.EOF` behind them. -/
def ReadsWhole (r : List UInt8 × Option FileError) (n : ℕ) : Prop :=
  r.1.length = n ∧ (r.2 = none ∨ r.2 = some .eof)

/-- The files without bytes strictly inside an extent exist. -/
def InnerFilesExist (fs : Fs) (files : List TorrentFile) (off n : ℕ) : Prop :=
  ∀ j f, files[j]? = some f → f.length = 0 → off < offset (lengths files) j →
    offset (lengths files) j < off + n → (fs f.path).isSome

theorem verified_of_complete {got : Recorded} {c : Completion} {set : Option Bool}
    (h : filePieceCompletion fs files off n got = some (c, set))
    (hc : c.complete = true ∧ c.ok = true) :
    ∃ required, extentCompleteRequiredLengths (lengths files) off n = some required ∧
      required.all (hasLength fs files) = true := by
  rw [filePieceCompletion] at h
  split at h
  · obtain ⟨rfl, -⟩ := Prod.mk.inj (some.inj h)
    cases hc.2
  · split at h
    · obtain ⟨required, hrequired, hresult⟩ := map_eq_some_iff.mp h
      refine ⟨required, hrequired, ?_⟩
      by_contra hall
      rw [if_neg hall] at hresult
      obtain ⟨rfl, -⟩ := Prod.mk.inj hresult
      cases hc.1
    · next hincomplete =>
      obtain ⟨rfl, -⟩ := Prod.mk.inj (some.inj h)
      exact absurd hc.1 hincomplete

/-- **A complete piece.** If `Completion` reports a piece to be complete, it can be read as a whole
iff the files without bytes strictly inside of it exist. -/
theorem complete_readable_iff {info : Info} {files : List TorrentFile}
    (hfiles : lengths files = info.fileLengths) {i : ℕ} (hi : i < info.numPieces) {fs : Fs}
    {got : Recorded} {c : Completion} {set : Option Bool}
    (h : filePieceCompletion fs files (i * info.pieceLength) (info.metaPieceLength i) got =
      some (c, set))
    (hc : c.complete = true ∧ c.ok = true) :
    ReadsWhole (readPiece fs files (i * info.pieceLength) (info.metaPieceLength i))
        (info.metaPieceLength i) ↔
      InnerFilesExist fs files (i * info.pieceLength) (info.metaPieceLength i) := by
  have hfit := piece_within hi
  rw [← hfiles] at hfit
  obtain ⟨required, hrequired, hall⟩ := verified_of_complete h hc
  generalize i * info.pieceLength = off at *
  generalize info.metaPieceLength i = n at *
  rw [readPiece, sectionReadAt]
  by_cases hn : n = 0
  · -- a piece without bytes is read without looking at the files
    rw [if_pos (by omega)]
    exact ⟨fun _ j f _ _ hlo hhi => by omega, fun _ => ⟨hn.symm, .inr rfl⟩⟩
  · rw [if_neg (by omega), if_neg (by omega), add_zero]
    obtain ⟨first, parts, htiles, hfirst, hlocate⟩ := locate_tiles hfit
    have hempty := fun {j} => @htiles.mem_empty_iff _ _ _ _ _ (hfirst (by omega)) j
    rw [extentCompleteRequiredLengths_tiles htiles fun hn => (hfirst hn).1] at hrequired
    obtain rfl := some.inj hrequired
    constructor
    · rintro ⟨hlen, -⟩ j f hf hzero hlo hhi
      by_contra hmissing
      rw [not_isSome_iff_eq_none] at hmissing
      have hmem := hempty.mpr ⟨hzero ▸ lengths_getElem? hf, hlo, hhi⟩
      have hshort := visitParts_readPart_short htiles hmem hf hmissing [] n
      rw [readAt, hlocate] at hlen
      dsimp only at hlen
      rw [hlen, length_nil] at hshort
      omega
    · intro hexist
      have hread : Readable fs files parts := by
        intro j e hj
        obtain ⟨l, hl, hstop, hzero, -, hlo, hhi, hend⟩ := htiles.mem hj
        obtain ⟨f, hf, rfl⟩ := exists_file hl
        dsimp only [Extent.stop] at hstop hend ⊢
        by_cases he : e.length = 0
        · have hf0 := hzero.mp he
          obtain rfl : e = ⟨0, 0⟩ := by
            obtain ⟨s, m⟩ := e
            dsimp only at he hstop ⊢
            congr
            omega
          obtain ⟨-, hlo', hhi'⟩ := hempty.mp hj
          obtain ⟨c, hc⟩ := isSome_iff_exists.mp (hexist j f hf hf0 hlo' hhi')
          exact ⟨f, c, hf, hc, zero_le _⟩
        · -- the end of the part is required
          obtain ⟨c, hc, hle⟩ := long_enough hall hj he hf
          exact ⟨f, c, hf, hc, hle⟩
      obtain ⟨bytes, hvisit, hlen, -⟩ := visitParts_readPart htiles hread []
      rw [readAt, hlocate, hvisit]
      exact ⟨hlen, .inl rfl⟩

/-- One piece of four bytes, of the two files and the empty one between them, and one of one. -/
def twoPieces : Info := ⟨4, [2, 0, 3], 2, by decide, by decide⟩

/-- The files, without the empty one unless `z`. -/
def filesThere (z : Bool) : Fs := fun path =>
  if path = [97] then some [1, 2]
  else if path = [98] then some [3, 4, 5]
  else if path = [122] ∧ z then some [] else none

theorem complete_readable :
    filePieceCompletion (filesThere true) threeFiles 0 4 ⟨⟨true, true⟩, false⟩ =
        some (⟨true, true⟩, none) ∧
      ReadsWhole (readPiece (filesThere true) threeFiles 0 4) 4 := by
  have hc : filePieceCompletion (filesThere true) threeFiles 0 4 ⟨⟨true, true⟩, false⟩ =
      some (⟨true, true⟩, none) := by decide
  have hexist : InnerFilesExist (filesThere true) threeFiles 0 4 := by
    rintro (_ | _ | _ | j) f hf hzero hlo hhi
    · cases hlo
    · cases hf
      rfl
    · cases hf
      cases hzero
    · cases hf
  exact ⟨hc, (@complete_readable_iff twoPieces threeFiles rfl 0 (by decide) _ _ _ _ hc
    ⟨rfl, rfl⟩).mpr hexist⟩

/-- Without the empty file the piece is still reported to be complete, and the read ends in front of
it. -/
theorem complete_unreadable :
    filePieceCompletion (filesThere false) threeFiles 0 4 ⟨⟨true, true⟩, false⟩ =
        some (⟨true, true⟩, none) ∧
      readPiece (filesThere false) threeFiles 0 4 = ([1, 2], some .eof) := by
  decide

end ReliableBT.Storage
