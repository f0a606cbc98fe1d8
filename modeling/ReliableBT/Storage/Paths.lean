import ReliableBT.Lib.FilePath

/-!
# Where a torrent's files are (`storage/file.go`, `storage/file-paths.go`, `storage/safe-path.go`,
`storage/mmap.go`)

The name of a torrent and the paths of its files come from the info, and so from someone else. Both
storages that keep a torrent in files join them to a base directory, and each has a guard of its own
against paths that lead out of it:

* `OpenTorrent` of the file storage joins first and then asks `isSubFilepath` whether the result is
  below the directory.
* `mMapTorrent` cleans the elements, joins them, and refuses a result whose first component is `..`
  (`ToSafeFilePath`); what is left is joined to the directory. A result that starts from the root
  passes, for joined to a directory it stays below it. But joined to the empty path, which stands
  for the working directory, it stays what it is.

What the file system does is a parameter: `fails` says of which files the creation or the mapping
fails, and the rest of the torrent's files is then not reached.

* `openTorrent_below`: a path that `OpenTorrent` accepts is below the base directory.
* `mMapTorrent_below_iff`: a path that `mMapTorrent` opens is, unless the base directory is the
  empty path and the name of the torrent starts with a separator.
-/

namespace ReliableBT.Storage

open FilePath List

/-- `metainfo.FileInfo` -/
structure FileInfo where
  length : ℤ
  path : List (List UInt8)
  deriving DecidableEq

/-- `metainfo.Info`, what the storages read of it. -/
structure NamedInfo where
  name : List UInt8
  length : ℤ := 0
  files : List FileInfo := []
  deriving DecidableEq

/-- `metainfo.NoName`: `-` -/
def noName : List UInt8 := [45]

/-- `UpvertedFiles` -/
def NamedInfo.upvertedFiles (info : NamedInfo) : List FileInfo :=
  if info.files = [] then [⟨info.length, []⟩] else info.files

/-! ## The file storage -/

/-- `isSubFilepath` -/
def isSubFilepath (base sub : List UInt8) : Bool :=
  match rel base sub with
  | none => false
  | some r => decide (r ≠ dotdot) && !(dotdot ++ [sep]).isPrefixOf r

/-- The default of `FilePathMaker`. -/
def filePathMaker (info : NamedInfo) (file : FileInfo) : List UInt8 :=
  join ((if info.name ≠ noName then [info.name] else []) ++ file.path)

/-- The errors of `OpenTorrent`. -/
inductive OpenError where
  /-- `file %v: path %q is not sub path of %q` -/
  | notSubPath (i : ℕ) (path dir : List UInt8)
  /-- `creating zero length file: %w` -/
  | zeroLengthFile (path : List UInt8)
  deriving DecidableEq

/-- `file` -/
structure File where
  path : List UInt8
  length : ℤ
  deriving DecidableEq

/-- The loop of `OpenTorrent`, from the `i`-th file on: the files that are accepted, and the error
that ends it. -/
def openFiles (fails : List UInt8 → Bool) (dir : List UInt8) (info : NamedInfo) :
    ℕ → List FileInfo → List File × Option OpenError
  | _, [] => ([], none)
  | i, fileInfo :: rest =>
    let filePath := join [dir, filePathMaker info fileInfo]
    if !isSubFilepath dir filePath then ([], some (.notSubPath i filePath dir))
    else
      let f : File := ⟨filePath, fileInfo.length⟩
      if f.length = 0 ∧ fails f.path then ([f], some (.zeroLengthFile f.path))
      else
        let r := openFiles fails dir info (i + 1) rest
        (f :: r.1, r.2)

/-- `OpenTorrent` of the file storage; `defaultPathMaker` gives the base directory. -/
def openTorrent (fails : List UInt8 → Bool) (baseDir : List UInt8) (info : NamedInfo) :
    List File × Option OpenError :=
  openFiles fails baseDir info 0 info.upvertedFiles

/-! ## The mmap storage -/

/-- `firstComponent` -/
def firstComponent (filePath : List UInt8) : List UInt8 := (elements filePath).headD []

/-- `ToSafeFilePath`, none for `escapes root dir` -/
def toSafeFilePath (fileInfoComponents : List (List UInt8)) : Option (List UInt8) :=
  let safeFilePath := join (fileInfoComponents.map clean)
  if firstComponent safeFilePath = dotdot then none else some safeFilePath

/-- The errors of `mMapTorrent`. -/
inductive MMapError where
  /-- `escapes root dir` -/
  | escapesRootDir
  /-- `file %q: %s` -/
  | file (path : List UInt8)
  deriving DecidableEq

/-- The loop of `mMapTorrent`: the names that `mmapFile` is called with, and the error that ends
it. -/
def mMapFiles (fails : List UInt8 → Bool) (location : List UInt8) (md : NamedInfo) :
    List FileInfo → List (List UInt8) × Option MMapError
  | [] => ([], none)
  | miFile :: rest =>
    match toSafeFilePath (md.name :: miFile.path) with
    | none => ([], some .escapesRootDir)
    | some safeName =>
      let fileName := join [location, safeName]
      if fails fileName then ([fileName], some (.file fileName))
      else
        let r := mMapFiles fails location md rest
        (fileName :: r.1, r.2)

/-- `mMapTorrent` -/
def mMapTorrent (fails : List UInt8 → Bool) (md : NamedInfo) (location : List UInt8) :
    List (List UInt8) × Option MMapError :=
  mMapFiles fails location md md.upvertedFiles

/-! ## The guards -/

theorem isSubFilepath_iff (base sub : List UInt8) :
    isSubFilepath base sub = true ↔ Below base sub := by
  rw [← rel_below_iff, isSubFilepath]
  cases rel base sub with
  | none => simp
  | some r =>
    simp only [Bool.and_eq_true, decide_eq_true_eq, Bool.not_eq_true', Option.some.injEq,
      exists_eq_left', GoesUp, not_or, ← List.isPrefixOf_iff_prefix, Bool.not_eq_true]

theorem toSafeFilePath_spec {name : List UInt8} {path : List (List UInt8)} {safe : List UInt8}
    (h : toSafeFilePath (name :: path) = some safe) :
    ∃ d : Lexical, safe = d.render ∧ d.ups = 0 ∧ (d.rooted = true ↔ name.head? = some sep) := by
  have hjoin : join ((name :: path).map clean) =
      (parse (unite ((name :: path).map clean))).render :=
    join_cons_of_ne (clean_ne_nil name) _
  rw [toSafeFilePath, hjoin] at h
  split at h
  · cases h
  · next hfirst =>
    refine ⟨_, (Option.some.inj h).symm, ?_, ?_⟩
    · by_contra hups
      rw [firstComponent, headD_eq_head?_getD, head_elements_render hups] at hfirst
      exact hfirst rfl
    · rw [parse_rooted, decide_eq_true_eq, map_cons, head_unite (clean_ne_nil name), head_clean]

theorem join_safe_below_iff {location safe : List UInt8} {d : Lexical} (hsafe : safe = d.render)
    (hups : d.ups = 0) :
    Below location (join [location, safe]) ↔ location ≠ [] ∨ d.rooted = false := by
  subst hsafe
  by_cases hloc : location = []
  · subst hloc
    have hne : d.render ≠ [] := by
      rw [← parse_render d]
      exact clean_ne_nil _
    rw [join_nil_pair hne, Below, parse_clean, parse_render]
    constructor
    · rintro ⟨names, h, hd⟩
      exact .inr (by rw [hd]; rfl)
    · rintro (hne | hr)
      · exact absurd rfl hne
      · refine ⟨d.names, d.valid, ?_⟩
        ext1
        · exact hr
        · exact hups
        · rfl
  · refine iff_of_true ?_ (.inl hloc)
    rw [Below, parse_join_pair hloc, foldl_go_render _ hups]
    exact ⟨d.names, d.valid, rfl⟩

/-! ## The paths that are opened -/

variable {fails : List UInt8 → Bool} {info : NamedInfo} {rest : List FileInfo} {f : File}

theorem openFiles_below (dir : List UInt8) (i : ℕ) (hf : f ∈ (openFiles fails dir info i rest).1) :
    Below dir f.path := by
  induction rest generalizing i with
  | nil => cases hf
  | cons fileInfo rest ih =>
    rw [openFiles] at hf
    dsimp only at hf
    split at hf
    · cases hf
    · next hsub =>
      have hbelow : Below dir (join [dir, filePathMaker info fileInfo]) := by
        rw [← isSubFilepath_iff]
        simpa using hsub
      split at hf
      · rw [mem_singleton.mp hf]
        exact hbelow
      · rcases mem_cons.mp hf with rfl | hrest
        · exact hbelow
        · exact ih (i + 1) hrest

theorem mMapFiles_spec (location : List UInt8) (md : NamedInfo) (p : List UInt8)
    (hp : p ∈ (mMapFiles fails location md rest).1) :
    ∃ miFile safe, toSafeFilePath (md.name :: FileInfo.path miFile) = some safe ∧
      p = join [location, safe] := by
  induction rest with
  | nil => cases hp
  | cons miFile rest ih =>
    rw [mMapFiles] at hp
    split at hp
    · cases hp
    · next safe hsafe =>
      dsimp only at hp
      split at hp
      · exact ⟨miFile, safe, hsafe, mem_singleton.mp hp⟩
      · rcases mem_cons.mp hp with rfl | hrest
        · exact ⟨miFile, safe, hsafe, rfl⟩
        · exact ih hrest

theorem openTorrent_below (baseDir : List UInt8) (hf : f ∈ (openTorrent fails baseDir info).1) :
    Below baseDir f.path :=
  openFiles_below baseDir 0 hf

/-- A path that `mMapTorrent` opens is below the base directory, unless this is the empty path and
the name starts from the root. -/
theorem mMapTorrent_below_iff
    (baseDir p : List UInt8) (hp : p ∈ (mMapTorrent fails info baseDir).1) :
    Below baseDir p ↔ baseDir ≠ [] ∨ info.name.head? ≠ some sep := by
  obtain ⟨miFile, safe, hsafe, rfl⟩ := mMapFiles_spec baseDir info p hp
  obtain ⟨d, hd, hups, hrooted⟩ := toSafeFilePath_spec hsafe
  rw [join_safe_below_iff hd hups, ← Bool.not_eq_true, hrooted]

/-- **Files stay under the base directory**: all that `OpenTorrent` accepts, and those that
`mMapTorrent` opens unless the base directory is the empty path and the name starts from the
root. -/
theorem files_below (fails : List UInt8 → Bool) (baseDir : List UInt8) (info : NamedInfo) :
    (∀ f ∈ (openTorrent fails baseDir info).1, Below baseDir (clean f.path)) ∧
      ∀ p ∈ (mMapTorrent fails info baseDir).1,
        Below baseDir (clean p) ↔ baseDir ≠ [] ∨ info.name.head? ≠ some sep := by
  constructor
  · intro f hf
    rw [Below, parse_clean]
    exact openTorrent_below baseDir hf
  · intro p hp
    rw [Below, parse_clean]
    exact mMapTorrent_below_iff baseDir p hp

/-- The torrent `/a` with the file `b`. -/
def rootedName : NamedInfo := ⟨[sep, 97], 0, [⟨1, [[98]]⟩]⟩

/-- In the directory `d` both storages open `d/a/b`. -/
theorem files_below_rooted :
    (∃ f ∈ (openTorrent (fun _ => false) [100] rootedName).1,
      f.path = [100, sep, 97, sep, 98] ∧ Below [100] (clean f.path)) ∧
    ∃ p ∈ (mMapTorrent (fun _ => false) rootedName [100]).1,
      p = [100, sep, 97, sep, 98] ∧ Below [100] (clean p) := by
  have h := files_below (fun _ => false) [100] rootedName
  refine ⟨⟨⟨[100, sep, 97, sep, 98], 1⟩, by decide, rfl, h.1 _ (by decide)⟩, ?_⟩
  exact ⟨_, by decide, rfl, (h.2 _ (by decide)).mpr (.inl (by decide))⟩

/-- The one file of the torrent `/a`, mapped with the empty path as base directory. -/
theorem mmap_escapes :
    mMapTorrent (fun _ => false) ⟨[sep, 97], 1, []⟩ [] = ([[sep, 97]], none) ∧
      ¬ Below [] (clean [sep, 97]) := by
  refine ⟨by decide, ?_⟩
  rintro ⟨names, h, hd⟩
  have hrooted : (parse (clean [sep, 97])).rooted = (parse []).rooted :=
    (congrArg Lexical.rooted hd).trans rfl
  exact absurd hrooted (by decide)

end ReliableBT.Storage
