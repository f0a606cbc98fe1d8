import ReliableBT.Lib.Writes
import ReliableBT.Storage.Paths
import ReliableBT.Storage.Segments

/-!
# The file storage as one array of bytes (`storage/file.go`)

`fileTorrentImplIO` lets the data of a torrent be read and written as if it were one array, and cuts
each access into the parts of the files that it is about. The file system is a map from paths to
contents, and its calls succeed: opening a file for writing creates it, a write behind the end of a
file fills the gap with zeros, and a read stops at the end of the file. Offsets are exact for total
lengths below `2 ^ 63`, as in `Storage/Segments.lean`.

A file that is missing is read as if it were empty, and this goes for files that should be empty,
too: a read that goes across one stops there if it is missing. `OpenTorrent` creates them.

* `writeAt_spec`: a write puts its bytes into their places, and leaves all other bytes as they are.
* `readAt_eq`: a read gives the bytes in their places, if all of them are there.
* `flat_array`: after any sequence of writes, a read of bytes that were written gives what was
  written to each place last.
-/

open List Nat

namespace ReliableBT.Storage

open Segments

/-- The contents of files, by their paths. -/
abbrev Fs := List UInt8 → Option (List UInt8)

/-- The errors of reads. -/
inductive FileError where
  /-- `io.EOF` -/
  | eof
  deriving DecidableEq, Repr

/-- `file`, with a length that is one -/
structure TorrentFile where
  path : List UInt8
  length : ℕ
  deriving DecidableEq

/-- The file lengths, from which `segmentLocater` is made. -/
def lengths (files : List TorrentFile) : List ℕ := files.map (·.length)

/-! ## Files -/

/-- `os.File.ReadAt`, into a buffer of `len` bytes -/
def osReadAt (contents : List UInt8) (len off : ℕ) : List UInt8 × Option FileError :=
  let bytes := (contents.drop off).take len
  (bytes, if bytes.length < len then some .eof else none)

/-- The loop of `readFileAt`; every round but the last reads something, so `len` rounds do. -/
def readFileLoop (contents : List UInt8) (length : ℕ) :
    ℕ → ℕ → ℕ → List UInt8 × Option FileError
  | 0, _, _ => ([], none)
  | fuel + 1, len, off =>
    if off < length ∧ len ≠ 0 then
      let r := osReadAt contents len off
      if r.1 = [] then ([], r.2)
      else
        let rest := readFileLoop contents length fuel (len - r.1.length) (off + r.1.length)
        (r.1 ++ rest.1, rest.2)
    else ([], none)

/-- `readFileAt` -/
def readFileAt (fs : Fs) (file : TorrentFile) (len off : ℕ) : List UInt8 × Option FileError :=
  match fs file.path with
  -- file missing is treated the same as a short file
  | none => ([], some .eof)
  | some contents =>
    let len := if file.length - off < len then file.length - off else len
    readFileLoop contents file.length len len off

/-- `os.File.WriteAt`; nothing is done if there is nothing to write. -/
def osWriteAt (contents data : List UInt8) (off : ℕ) : List UInt8 :=
  if data = [] then contents
  else
    contents.take off ++ replicate (off - contents.length) 0 ++ data ++
      contents.drop (off + data.length)

/-- `os.OpenFile` with `O_CREATE`, and `WriteAt` -/
def writeFile (fs : Fs) (path data : List UInt8) (off : ℕ) : Fs :=
  fun p => if p = path then some (osWriteAt ((fs path).getD []) data off) else fs p

/-! ## The torrent -/

/-- What `ReadAt` has read, the length of the buffer that is left, and its error. -/
structure Reading where
  bytes : List UInt8
  left : ℕ
  err : Option FileError

/-- The callback of `ReadAt`. -/
def readPart (fs : Fs) (files : List TorrentFile) (r : Reading) (i : ℕ) (e : Extent) :
    Reading × Bool :=
  match files[i]? with
  | none => (r, false)
  | some file =>
    let (bytes, err) := readFileAt fs file e.length e.start
    (⟨r.bytes ++ bytes, r.left - bytes.length, err⟩, err.isNone)

/-- `ReadAt` of `fileTorrentImplIO`, into a buffer of `len` bytes -/
def readAt (fs : Fs) (files : List TorrentFile) (len off : ℕ) : List UInt8 × Option FileError :=
  let r := (locate (newIndex (lengths files)) ⟨off, len⟩ (readPart fs files) ⟨[], len, none⟩).1
  (r.bytes, if r.left ≠ 0 ∧ r.err = none then some .eof else r.err)

/-- What `WriteAt` has to write yet, and how many bytes it has written. -/
structure Writing where
  fs : Fs
  left : List UInt8
  n : ℕ

/-- The callback of `WriteAt`, when all calls succeed. -/
def writePart (files : List TorrentFile) (w : Writing) (i : ℕ) (e : Extent) : Writing × Bool :=
  match files[i]? with
  | none => (w, false)
  | some file =>
    let data := w.left.take e.length
    (⟨writeFile w.fs file.path data e.start, w.left.drop data.length, w.n + data.length⟩, true)

/-- `WriteAt` of `fileTorrentImplIO` -/
def writeAt (fs : Fs) (files : List TorrentFile) (data : List UInt8) (off : ℕ) : Writing :=
  (locate (newIndex (lengths files)) ⟨off, data.length⟩ (writePart files) ⟨fs, data, 0⟩).1

/-- The byte `k` of a file. -/
def byteAt (fs : Fs) (path : List UInt8) (k : ℕ) : Option UInt8 := (fs path).bind (·[k]?)

/-- The byte `p` of the torrent. -/
def flatByte (fs : Fs) : List TorrentFile → ℕ → Option UInt8
  | [], _ => none
  | f :: files, p => if p < f.length then byteAt fs f.path p else flatByte fs files (p - f.length)

/-- The files that should be empty exist. -/
def ZeroFilesExist (fs : Fs) (files : List TorrentFile) : Prop :=
  ∀ f ∈ files, f.length = 0 → (fs f.path).isSome

/-! ## One file -/

variable {contents : List UInt8} {len off : ℕ} {fs : Fs} {files : List TorrentFile} {i : ℕ}
  {f : TorrentFile} {l k q p : ℕ} {parts : List (ℕ × Extent)} {n : ℕ} {data : List UInt8}
  {fails : List UInt8 → Bool} {info : NamedInfo}

theorem readFileLoop_eq {length : ℕ} (hlen : off + len ≤ length)
    (hsize : off + len ≤ contents.length) :
    readFileLoop contents length len len off = ((contents.drop off).take len, none) := by
  cases len with
  | zero => rfl
  | succ len =>
    have hbytes : ((contents.drop off).take (len + 1)).length = len + 1 := by
      rw [length_take, length_drop]
      omega
    have hne : (contents.drop off).take (len + 1) ≠ [] := by
      intro hnil
      rw [hnil] at hbytes
      cases hbytes
    rw [readFileLoop, if_pos ⟨by omega, by omega⟩]
    dsimp only [osReadAt]
    rw [if_neg hne, hbytes, Nat.sub_self]
    -- one round reads everything
    have hdone : ∀ fuel off, readFileLoop contents length fuel 0 off = ([], none) := by
      intro fuel off
      cases fuel with
      | zero => rfl
      | succ fuel => rw [readFileLoop, if_neg (by simp)]
    rw [hdone, append_nil]

theorem readFileAt_eq {file : TorrentFile} (hfile : fs file.path = some contents)
    (hlen : off + len ≤ file.length) (hsize : off + len ≤ contents.length) :
    readFileAt fs file len off = ((contents.drop off).take len, none) := by
  rw [readFileAt, hfile]
  dsimp only
  rw [if_neg (by omega)]
  exact readFileLoop_eq hlen hsize

theorem getElem?_osWriteAt (contents data : List UInt8) (off k : ℕ) :
    (osWriteAt contents data off)[k]? =
      ((if off ≤ k then data[k - off]? else none).or contents[k]?).or
        (if data ≠ [] ∧ k < off then some 0 else none) := by
  rw [osWriteAt]
  by_cases hdata : data = []
  · simp [hdata]
  · rw [if_neg hdata, append_assoc, append_assoc]
    by_cases hlt : k < off
    · rw [if_neg (by omega), if_pos ⟨hdata, hlt⟩, Option.none_or]
      by_cases hin : k < contents.length
      · rw [getElem?_append_left (by rw [length_take]; omega),
          getElem?_take_of_lt hlt, getElem?_eq_getElem hin, Option.some_or]
      · rw [getElem?_append_right (by rw [length_take]; omega), length_take,
          getElem?_append_left (by rw [length_replicate]; omega),
          getElem?_replicate, if_pos (by omega), getElem?_eq_none (by omega),
          Option.none_or]
    · have hgap : (contents.take off).length + (off - contents.length) = off := by
        rw [length_take]
        omega
      rw [if_pos (by omega), if_neg (by tauto), Option.or_none,
        getElem?_append_right (by omega),
        getElem?_append_right (by rw [length_replicate]; omega),
        length_replicate, Nat.sub_sub, hgap]
      by_cases hin : k - off < data.length
      · rw [getElem?_append_left hin, getElem?_eq_getElem hin, Option.some_or]
      · rw [getElem?_append_right (by omega), getElem?_eq_none (l := data) (by omega),
          Option.none_or, getElem?_drop]
        congr 1
        omega

theorem byteAt_writeFile (fs : Fs) (path data : List UInt8) (off : ℕ) (p : List UInt8) (k : ℕ) :
    byteAt (writeFile fs path data off) p k =
      if p = path then
        ((if off ≤ k then data[k - off]? else none).or (byteAt fs path k)).or
          (if data ≠ [] ∧ k < off then some 0 else none)
      else byteAt fs p k := by
  by_cases hp : p = path
  · rw [if_pos hp, byteAt, writeFile, if_pos hp, Option.bind_some, getElem?_osWriteAt]
    cases hfs : fs path with
    | none => simp [byteAt, hfs]
    | some c => simp [byteAt, hfs]
  · rw [if_neg hp, byteAt, writeFile, if_neg hp, byteAt]

/-! ## The bytes of the torrent -/

theorem lengths_getElem? (h : files[i]? = some f) : (lengths files)[i]? = some f.length := by
  rw [lengths, getElem?_map, h]
  rfl

theorem exists_file (h : (lengths files)[i]? = some l) :
    ∃ f, files[i]? = some f ∧ f.length = l := by
  rw [lengths, getElem?_map] at h
  exact Option.map_eq_some_iff.mp h

theorem flatByte_offset (hf : files[i]? = some f) (hk : k < f.length) :
    flatByte fs files (offset (lengths files) i + k) = byteAt fs f.path k := by
  induction files generalizing i with
  | nil => cases hf
  | cons f' files ih =>
    cases i with
    | zero =>
      obtain rfl : f' = f := Option.some.inj hf
      rw [flatByte, show offset (lengths (f' :: files)) 0 = 0 from rfl, zero_add, if_pos hk]
    | succ i =>
      have hoff : offset (lengths (f' :: files)) (i + 1) = f'.length + offset (lengths files) i :=
        sum_cons
      rw [flatByte, hoff, if_neg (by omega), Nat.add_assoc, Nat.add_sub_cancel_left]
      exact ih hf

theorem exists_place {files : List TorrentFile} {q : ℕ} (hq : q < (lengths files).sum) :
    ∃ i f k, files[i]? = some f ∧ k < f.length ∧ q = offset (lengths files) i + k := by
  induction files generalizing q with
  | nil => exact absurd hq (not_lt_zero q)
  | cons f files ih =>
    by_cases hlt : q < f.length
    · exact ⟨0, f, q, rfl, hlt, (zero_add q).symm⟩
    · have hsum : (lengths (f :: files)).sum = f.length + (lengths files).sum := sum_cons
      obtain ⟨i, f', k, hf', hk, hq'⟩ := @ih (q - f.length) (by omega)
      have hoff : offset (lengths (f :: files)) (i + 1) = f.length + offset (lengths files) i :=
        sum_cons
      exact ⟨i + 1, f', k, hf', hk, by omega⟩

theorem flatByte_of_le (hq : (lengths files).sum ≤ q) : flatByte fs files q = none := by
  induction files generalizing q with
  | nil => rfl
  | cons f files ih =>
    have hsum : (lengths (f :: files)).sum = f.length + (lengths files).sum := sum_cons
    rw [flatByte, if_neg (by omega)]
    exact ih (by omega)

/-! ## Reading -/

/-- The files of the parts are there, and long enough. -/
def Readable (fs : Fs) (files : List TorrentFile) (parts : List (ℕ × Extent)) : Prop :=
  ∀ j e, (j, e) ∈ parts → ∃ f c, files[j]? = some f ∧ fs f.path = some c ∧ e.stop ≤ c.length

theorem visitParts_readPart (h : Tiles (lengths files) i p len parts)
    (hread : Readable fs files parts) (acc : List UInt8) :
    ∃ bytes, visitParts (readPart fs files) parts ⟨acc, len, none⟩ = ⟨acc ++ bytes, 0, none⟩ ∧
      bytes.length = len ∧ ∀ k < len, bytes[k]? = flatByte fs files (p + k) := by
  induction h generalizing acc with
  | done => exact ⟨[], by rw [append_nil]; rfl, rfl, by omega⟩
  | @tile i p l start n len parts hl hp hin hempty hmore hnext rest ih =>
    obtain ⟨f, c, hf, hc, hstop⟩ := hread i ⟨start, n⟩ mem_cons_self
    dsimp only [Extent.stop] at hstop
    have hlen : f.length = l := Option.some.inj ((lengths_getElem? hf).symm.trans hl)
    have hpart : readFileAt fs f n start = ((c.drop start).take n, none) :=
      readFileAt_eq hc (by omega) hstop
    have hn : ((c.drop start).take n).length = n := by
      rw [length_take, length_drop]
      omega
    obtain ⟨bytes, hvisit, hbytes, hflat⟩ :=
      ih (fun j e hj => hread j e (mem_cons_of_mem _ hj)) (acc ++ (c.drop start).take n)
    refine ⟨(c.drop start).take n ++ bytes, ?_, ?_, ?_⟩
    · rw [visitParts, readPart, hf]
      dsimp only
      rw [hpart]
      dsimp only
      rw [hn, Nat.add_sub_cancel_left, Option.isNone_none, ← append_assoc]
      exact hvisit
    · rw [length_append, hn, hbytes]
    · intro k hk
      by_cases hkn : k < n
      · rw [getElem?_append_left (by omega), getElem?_take_of_lt hkn, getElem?_drop,
          ← hp, add_assoc, flatByte_offset hf (by omega), byteAt, hc]
        rfl
      · rw [getElem?_append_right (by omega), hn, hflat (k - n) (by omega)]
        congr 1
        omega

/-- **A read** gives the bytes in their places, if the files are there and long enough. -/
theorem readAt_eq (hfit : off + len ≤ (lengths files).sum) (hzero : ZeroFilesExist fs files)
    (hbytes : ∀ k < len, (flatByte fs files (off + k)).isSome) :
    ∃ bytes, readAt fs files len off = (bytes, none) ∧ bytes.length = len ∧
      ∀ k < len, bytes[k]? = flatByte fs files (off + k) := by
  obtain ⟨i, parts, htiles, -, hlocate⟩ := locate_tiles hfit
  have hread : Readable fs files parts := by
    intro j e hj
    obtain ⟨l, hl, hstop, hempty, -, hlo, hhi, hend⟩ := htiles.mem hj
    obtain ⟨f, hf, rfl⟩ := exists_file hl
    by_cases he : e.length = 0
    · obtain ⟨c, hc⟩ := Option.isSome_iff_exists.mp (hzero f (mem_of_getElem? hf) (hempty.mp he))
      exact ⟨f, c, hf, hc, by have := hempty.mp he; omega⟩
    · -- the last byte of the part is there
      dsimp only [Extent.stop] at hstop hend ⊢
      have hlast := hbytes (offset (lengths files) j + (e.start + e.length - 1) - off) (by omega)
      rw [Nat.add_sub_cancel' (by omega), flatByte_offset hf (by omega), byteAt] at hlast
      obtain ⟨v, hv⟩ := Option.isSome_iff_exists.mp hlast
      obtain ⟨c, hc, hcv⟩ := Option.bind_eq_some_iff.mp hv
      obtain ⟨hlt, -⟩ := List.getElem?_eq_some_iff.mp hcv
      exact ⟨f, c, hf, hc, by omega⟩
  obtain ⟨bytes, hvisit, hlen, hflat⟩ := visitParts_readPart htiles hread []
  refine ⟨bytes, ?_, hlen, hflat⟩
  rw [readAt, hlocate, hvisit]
  rfl

/-! ## Writing -/

/-- What a walk over the parts of a write does to the files of the torrent, and to others. -/
structure Written (files : List TorrentFile) (i p : ℕ) (data : List UInt8) (fs fs' : Fs) :
    Prop where
  inside : ∀ j f k, files[j]? = some f → byteAt fs' f.path k =
    ((if k < f.length ∧ p ≤ offset (lengths files) j + k then
        data[offset (lengths files) j + k - p]?
      else none).or (byteAt fs f.path k)).or
      (if data ≠ [] ∧ j = i ∧ offset (lengths files) j + k < p then some 0 else none)
  outside : ∀ path, (∀ f ∈ files, f.path ≠ path) → fs' path = fs path
  exist : ∀ path, (fs path).isSome → (fs' path).isSome

theorem eq_of_path (hnodup : (files.map (·.path)).Nodup) {j : ℕ} {f' : TorrentFile}
    (hf : files[i]? = some f) (hf' : files[j]? = some f') (hpath : f.path = f'.path) : i = j := by
  obtain ⟨hi, rfl⟩ := List.getElem?_eq_some_iff.mp hf
  obtain ⟨hj, rfl⟩ := List.getElem?_eq_some_iff.mp hf'
  have hi' : i < (files.map (·.path)).length := by rwa [length_map]
  have hj' : j < (files.map (·.path)).length := by rwa [length_map]
  have heq : (files.map (·.path))[i] = (files.map (·.path))[j] := by
    rw [getElem_map, getElem_map, hpath]
  exact hnodup.getElem_inj_iff.mp heq

theorem merge_same {start : ℕ} {old : Option UInt8} {c : Prop} [Decidable c] (hc : c)
    (hp : off + start = p) (hin : start + n ≤ l) (hempty : n = 0 → l = 0)
    (hnext : 0 < len → start + n = l) (hdata : data.length = n + len) :
    (if k < l ∧ p + n ≤ off + k then (data.drop n)[off + k - (p + n)]? else none).or
        (((if start ≤ k then (data.take n)[k - start]? else none).or old).or
          (if data.take n ≠ [] ∧ k < start then some 0 else none)) =
      ((if k < l ∧ p ≤ off + k then data[off + k - p]? else none).or old).or
        (if data ≠ [] ∧ c ∧ off + k < p then some 0 else none) := by
  have hplace : off + k - p = k - start := by omega
  by_cases hlt : k < start
  · -- before the part: there is one, for the segment has bytes
    have hne : data.take n ≠ [] := by
      intro hnil
      have := congrArg length hnil
      rw [length_take, length_nil] at this
      omega
    have hne' : data ≠ [] := by
      rintro rfl
      exact hne take_nil
    rw [if_neg (by omega), if_neg (by omega), if_pos ⟨hne, hlt⟩, if_neg (by omega),
      if_pos ⟨hne', hc, by omega⟩]
    simp only [Option.none_or]
  · have hrest : (if k < l ∧ p + n ≤ off + k then (data.drop n)[off + k - (p + n)]? else none) =
        none := by
      by_cases hcond : k < l ∧ p + n ≤ off + k
      · rw [if_pos hcond]
        exact getElem?_eq_none (by rw [length_drop]; omega)
      · exact if_neg hcond
    have hfill : ¬ (data.take n ≠ [] ∧ k < start) := fun h => hlt h.2
    have hfill' : ¬ (data ≠ [] ∧ c ∧ off + k < p) := fun h => absurd h.2.2 (by omega)
    rw [hrest, Option.none_or, if_pos (by omega), if_neg hfill, Option.or_none, if_neg hfill',
      Option.or_none, hplace]
    by_cases hpart : k < start + n
    · rw [if_pos (by omega), getElem?_take_of_lt (by omega)]
    · rw [getElem?_eq_none (l := data.take n) (by rw [length_take]; omega)]
      split_ifs
      · rw [getElem?_eq_none (l := data) (by omega)]
      · rfl

theorem merge_other (hout : k < l → ¬ (p ≤ q ∧ q < p + n)) :
    (if k < l ∧ p + n ≤ q then (data.drop n)[q - (p + n)]? else none) =
      if k < l ∧ p ≤ q then data[q - p]? else none := by
  by_cases h : k < l ∧ p ≤ q
  · have hge : p + n ≤ q := by
      by_contra hlt
      exact hout h.1 ⟨h.2, by omega⟩
    rw [if_pos ⟨h.1, hge⟩, if_pos h, getElem?_drop]
    congr 1
    omega
  · rw [if_neg fun h' => h ⟨h'.1, by omega⟩, if_neg h]

theorem visitParts_writePart (hnodup : (files.map (·.path)).Nodup)
    (h : Tiles (lengths files) i p len parts) (fs : Fs) (data : List UInt8)
    (hdata : data.length = len) (n₀ : ℕ) :
    ∃ fs', visitParts (writePart files) parts ⟨fs, data, n₀⟩ = ⟨fs', [], n₀ + len⟩ ∧
      Written files i p data fs fs' := by
  induction h generalizing fs data n₀ with
  | @done i p =>
    obtain rfl : data = [] := length_eq_zero_iff.mp hdata
    exact ⟨fs, rfl, by simp, fun _ _ => rfl, fun _ h => h⟩
  | @tile i p l start n len parts hl hp hin hempty hmore hnext rest ih =>
    obtain ⟨f, hf, rfl⟩ := exists_file hl
    have htake : (data.take n).length = n := by
      rw [length_take]
      omega
    obtain ⟨fs', hvisit, hwritten⟩ := ih (writeFile fs f.path (data.take n) start) (data.drop n)
      (by rw [length_drop]; omega) (n₀ + n)
    refine ⟨fs', ?_, ?_, ?_, ?_⟩
    · rw [visitParts, writePart, hf]
      dsimp only
      rw [htake, hvisit, add_assoc]
    · intro j g k hg
      have hoff := offset_succ hl
      -- the next segment starts where this part ends, so nothing is filled there
      have hfill : ¬ (data.drop n ≠ [] ∧ j = i + 1 ∧ offset (lengths files) j + k < p + n) := by
        rintro ⟨hne, rfl, hlt⟩
        have hlen : 0 < len := by
          have := length_pos_iff.mpr hne
          rw [length_drop] at this
          omega
        have := hnext hlen
        omega
      rw [hwritten.inside j g k hg, if_neg hfill, Option.or_none, byteAt_writeFile]
      by_cases hji : j = i
      · obtain rfl : f = g := Option.some.inj (hf.symm.trans (hji ▸ hg))
        subst hji
        rw [if_pos rfl]
        exact merge_same rfl hp hin hempty.mp hnext hdata
      · have hfill' : ¬ (data ≠ [] ∧ j = i ∧ offset (lengths files) j + k < p) :=
          fun h => hji h.2.1
        rw [if_neg fun heq => hji (eq_of_path hnodup hg hf heq), merge_other ?_, if_neg hfill',
          Option.or_none]
        rintro hk ⟨hlo, hhi⟩
        have hg' := offset_succ (lengths_getElem? hg)
        exact hji (@eq_of_offset (lengths files) j i (offset (lengths files) j + k) (by omega)
          (by omega) (by omega) (by omega))
    · intro path hpath
      rw [hwritten.outside path hpath, writeFile,
        if_neg fun heq => hpath f (mem_of_getElem? hf) heq.symm]
    · intro path hpath
      refine hwritten.exist path ?_
      rw [writeFile]
      split
      · rfl
      · exact hpath

/-- **A write** puts its bytes into their places, and leaves all other bytes as they are. -/
theorem writeAt_spec (hnodup : (files.map (·.path)).Nodup) (fs : Fs)
    (hfit : off + data.length ≤ (lengths files).sum) :
    ∃ i, (data ≠ [] → offset (lengths files) i ≤ off ∧ off < offset (lengths files) (i + 1)) ∧
      (writeAt fs files data off).n = data.length ∧
      Written files i off data fs (writeAt fs files data off).fs := by
  obtain ⟨i, parts, htiles, hi, hlocate⟩ := locate_tiles hfit
  obtain ⟨fs', hvisit, hwritten⟩ := visitParts_writePart hnodup htiles fs data rfl 0
  have heq : writeAt fs files data off = ⟨fs', [], 0 + data.length⟩ := by
    rw [writeAt, hlocate, hvisit]
  refine ⟨i, fun hne => hi (length_pos_iff.mpr hne), ?_, ?_⟩
  · rw [heq]
    exact zero_add _
  · rw [heq]
    exact hwritten

/-! ## The torrent as an array -/

/-- A write that starts in a file behind the place `q` of the file. -/
def touches (files : List TorrentFile) (w : Write Unit) (_ : Unit) (q : ℕ) : Bool :=
  decide (w.data ≠ [] ∧ q < w.off) && (range files.length).any fun i =>
    decide (offset (lengths files) i ≤ q ∧ w.off < offset (lengths files) (i + 1))

theorem sparse_writeAt (hnodup : (files.map (·.path)).Nodup) :
    Sparse (fun fs => ZeroFilesExist fs files)
      (fun w => w.off + w.data.length ≤ (lengths files).sum) (touches files)
      (fun fs _ q => flatByte fs files q) fun fs w => (writeAt fs files w.data w.off).fs := by
  intro fs w hzero hfit
  obtain ⟨i, hi, -, hwritten⟩ := writeAt_spec hnodup fs hfit
  refine ⟨fun f hf hf0 => hwritten.exist _ (hzero f hf hf0), fun ⟨⟩ q => ?_⟩
  dsimp only
  by_cases hq : q < (lengths files).sum
  · obtain ⟨j, f, k, hf, hk, rfl⟩ := exists_place hq
    have hsucc := offset_succ (lengths_getElem? hf)
    -- the place is touched iff the write starts behind it in the same file
    have htouch : touches files w () (offset (lengths files) j + k) =
        decide (w.data ≠ [] ∧ j = i ∧ offset (lengths files) j + k < w.off) := by
      rw [touches, Bool.eq_iff_iff, Bool.and_eq_true, decide_eq_true_eq, decide_eq_true_eq,
        any_eq_true]
      constructor
      · rintro ⟨⟨hne, hlt⟩, i', -, hi'⟩
        rw [decide_eq_true_eq] at hi'
        obtain ⟨hlo, hhi⟩ := hi hne
        obtain rfl : i' = j := @eq_of_offset (lengths files) i' j (offset (lengths files) j + k)
          hi'.1 (by omega) (by omega) (by omega)
        exact ⟨hne, @eq_of_offset (lengths files) i' i w.off (by omega) hi'.2 hlo hhi, hlt⟩
      · rintro ⟨hne, rfl, hlt⟩
        refine ⟨⟨hne, hlt⟩, j, ?_, ?_⟩
        · rw [mem_range]
          exact (List.getElem?_eq_some_iff.mp hf).1
        · rw [decide_eq_true_eq]
          exact ⟨by omega, (hi hne).2⟩
    rw [flatByte_offset hf hk, flatByte_offset hf hk, hwritten.inside j f k hf, htouch, Write.byte]
    simp [hk]
  · have htouch : touches files w () q = false := by
      rw [touches, Bool.and_eq_false_iff]
      left
      rw [decide_eq_false_iff_not]
      omega
    have hbyte : w.byte () q = none := byte_eq_none fun _ => by omega
    rw [flatByte_of_le (by omega), flatByte_of_le (by omega), htouch, hbyte]
    rfl

/-- The place is one that is written to. -/
def InRange (files : List TorrentFile) (w : Write Unit) (path : List UInt8) (k : ℕ) : Prop :=
  ∃ j f, files[j]? = some f ∧ f.path = path ∧ k < f.length ∧
    w.off ≤ offset (lengths files) j + k ∧ offset (lengths files) j + k < w.off + w.data.length

/-- The place is in front of the write, in the file in which the write begins. -/
def InFront (files : List TorrentFile) (w : Write Unit) (path : List UInt8) (k : ℕ) : Prop :=
  w.data ≠ [] ∧ ∃ i f, files[i]? = some f ∧ f.path = path ∧ offset (lengths files) i + k < w.off ∧
    w.off < offset (lengths files) (i + 1)

/-- A write changes no byte elsewhere; bytes that are missing in front of it, in the same file,
appear as zeros. -/
theorem writeAt_frame (hnodup : (files.map (·.path)).Nodup) (fs : Fs) {w : Write Unit}
    (hfit : w.off + w.data.length ≤ (lengths files).sum) {path : List UInt8}
    (hout : ¬ InRange files w path k) :
    byteAt (writeAt fs files w.data w.off).fs path k = byteAt fs path k ∨
      (InFront files w path k ∧ byteAt fs path k = none ∧
        byteAt (writeAt fs files w.data w.off).fs path k = some 0) := by
  obtain ⟨i, hi, -, hwritten⟩ := writeAt_spec hnodup fs hfit
  by_cases hpath : ∃ f ∈ files, f.path = path
  · obtain ⟨f, hf, rfl⟩ := hpath
    obtain ⟨j, hj⟩ := mem_iff_getElem?.mp hf
    have hnone : (if k < f.length ∧ w.off ≤ offset (lengths files) j + k then
        w.data[offset (lengths files) j + k - w.off]? else none) = none := by
      by_cases hcond : k < f.length ∧ w.off ≤ offset (lengths files) j + k
      · rw [if_pos hcond]
        refine getElem?_eq_none ?_
        by_contra hlt
        exact hout ⟨j, f, hj, rfl, hcond.1, hcond.2, by omega⟩
      · exact if_neg hcond
    rw [hwritten.inside j f k hj, hnone, Option.none_or]
    cases hb : byteAt fs f.path k with
    | some v => exact .inl rfl
    | none =>
      rw [Option.none_or]
      split
      · next hfill =>
        obtain ⟨hne, rfl, hlt⟩ := hfill
        exact .inr ⟨⟨hne, j, f, hj, rfl, hlt, (hi hne).2⟩, rfl, rfl⟩
      · exact .inl rfl
  · left
    rw [byteAt, hwritten.outside path fun f hf hp => hpath ⟨f, hf, hp⟩, byteAt]

/-- **One array of bytes.** After any sequence of writes, a read of bytes that were all written
gives them all, each as it was written last; and each write leaves the bytes elsewhere as they
are, but for bytes that did not exist in front of it in the same file, which are zeros. -/
theorem flat_array {files : List TorrentFile} (hnodup : (files.map (·.path)).Nodup) {fs : Fs}
    (hzero : ZeroFilesExist fs files) {ws : List (Write Unit)}
    (hws : ∀ w ∈ ws, w.off + w.data.length ≤ (lengths files).sum) :
    (∀ off len, off + len ≤ (lengths files).sum →
      (∀ k < len, ∃ w ∈ ws, w.off ≤ off + k ∧ off + k < w.off + w.data.length) →
      ∃ bytes, readAt (ws.foldl (fun fs w => (writeAt fs files w.data w.off).fs) fs) files len off =
          (bytes, none) ∧ bytes.length = len ∧
        ∀ k < len, bytes[k]? = lastWritten ws () (off + k)) ∧
    ∀ fs, ∀ w ∈ ws, ∀ path k, ¬ InRange files w path k →
      byteAt (writeAt fs files w.data w.off).fs path k = byteAt fs path k ∨
        (InFront files w path k ∧ byteAt fs path k = none ∧
          byteAt (writeAt fs files w.data w.off).fs path k = some 0) := by
  constructor
  · intro off len hfit hall
    obtain ⟨hzero', hview⟩ := (sparse_writeAt hnodup).run hzero hws
    -- what was written is there
    have hlast : ∀ k < len, ∃ v, lastWritten ws () (off + k) = some v ∧
        flatByte (ws.foldl (fun fs w => (writeAt fs files w.data w.off).fs) fs) files (off + k) =
          some v := by
      intro k hk
      obtain ⟨w, hw, hlo, hhi⟩ := hall k hk
      have hsome : (lastWritten ws () (off + k)).isSome := by
        refine isSome_lastWritten_iff.mpr ⟨w, hw, ?_⟩
        rw [Write.byte, if_pos ⟨rfl, hlo⟩, getElem?_eq_getElem (by omega)]
        rfl
      obtain ⟨v, hv⟩ := Option.isSome_iff_exists.mp hsome
      refine ⟨v, hv, ?_⟩
      rw [hview () (off + k), hv]
      rfl
    obtain ⟨bytes, hread, hlen, hbytes⟩ := readAt_eq hfit hzero' fun k hk => by
      obtain ⟨v, -, hv⟩ := hlast k hk
      rw [hv]
      rfl
    refine ⟨bytes, hread, hlen, fun k hk => ?_⟩
    obtain ⟨v, hv, hflat⟩ := hlast k hk
    rw [hbytes k hk, hflat, hv]
  · intro fs w hw path k hout
    exact writeAt_frame hnodup fs (hws w hw) hout

/-- Two files with an empty one between them. -/
def threeFiles : List TorrentFile := [⟨[97], 2⟩, ⟨[122], 0⟩, ⟨[98], 3⟩]

/-- A write across the empty file, and one that overwrites part of it. -/
def twoWrites : List (Write Unit) := [⟨(), 1, [1, 2, 3]⟩, ⟨(), 0, [9, 8]⟩]

/-- Only the empty file exists at first. -/
def emptyFile : Fs := fun path => if path = [122] then some [] else none

theorem flat_array_across :
    ∃ bytes, readAt (twoWrites.foldl (fun fs w => (writeAt fs threeFiles w.data w.off).fs)
        emptyFile) threeFiles 4 0 = (bytes, none) ∧ bytes.length = 4 ∧
      ∀ k < 4, bytes[k]? = lastWritten twoWrites () (0 + k) := by
  have hzero : ZeroFilesExist emptyFile threeFiles := by
    unfold ZeroFilesExist
    decide
  exact (flat_array (by decide) hzero (by decide)).1 0 4 (by decide) (by decide)

end ReliableBT.Storage
