import ReliableBT.Lib.Decimal
import ReliableBT.Storage.FileCompletion

/-!
# A resource for each piece (`storage/piece-resource.go`)

The storage keeps everything in resources, that is in contents under paths, which a provider looks
after. A write becomes a resource of its own, a chunk, whose name is the offset of the write. A read
takes the chunks in the order of their offsets and goes through them. When the piece is complete its
chunks are put together in one resource, from which reads are served then.

The provider is a map from paths to contents. It lists the names in a directory in any order. If it
can read consecutive chunks itself, it gives the contents of all chunks in the order of their
offsets. A path is the list of its elements. The resources are those of one piece; pieces with the
same hash share them.

* `chunksReadAt_eq`: a read of chunks that do not overlap gives the longest run of bytes.
* `getChunks_eq`: the chunks are the last writes from each offset on, in the order of the offsets.
* `reads_written`: reads give what was written last, before and after the piece is complete.
-/

open List Nat Function

namespace ReliableBT.Resource

open Decimal
open Storage (Completion)

/-- The elements of a path. -/
abbrev Path := List (List UInt8)

/-- The contents of the resources. -/
abbrev Store := AList fun _ : Path => List UInt8

/-- `Readdirnames`, in the order in which the provider has them -/
def dirNames (s : Store) (dir : Path) : List (List UInt8) :=
  s.keys.filterMap fun p => if p.dropLast = dir then p.getLast? else none

/-- What is known of the provider and its instances: the order in which names are listed, whether it
is a `ConsecutiveChunkReader`, and whether its instances are `SizedPutter`s. -/
structure Provider where
  order : List (List UInt8) → List (List UInt8)
  perm : ∀ names, (order names).Perm names
  consecutive : Bool
  sized : Bool

/-- `ResourcePiecesOpts` -/
structure Opts where
  leaveIncompleteChunks : Bool
  noSizedPuts : Bool

/-- The hash of the piece as a name, and its length. -/
structure Piece where
  hash : List UInt8
  length : ℕ

/-- The errors of reads. -/
inductive Err where
  /-- `io.EOF` -/
  | eof
  /-- There is no such resource. -/
  | notExist
  /-- The reader has not as many bytes as `PutSized` was told. -/
  | wrongSize
  deriving DecidableEq, Repr

/-- `completedInstancePath` -/
def completedInstancePath (pc : Piece) : Path :=
  [[99, 111, 109, 112, 108, 101, 116, 101, 100], pc.hash]

/-- `incompleteDirPath` -/
def incompleteDirPath (pc : Piece) : Path :=
  [[105, 110, 99, 111, 109, 112, 108, 101, 116, 101, 100], pc.hash]

/-- The path of the chunk at an offset. -/
def chunkPath (pc : Piece) (off : ℕ) : Path := incompleteDirPath pc ++ [formatInt off]

/-- `ReadAt` of an instance, into a buffer of `len` bytes -/
def instanceReadAt (s : Store) (p : Path) (len off : ℕ) : List UInt8 × Option Err :=
  match s.lookup p with
  | none => ([], some .notExist)
  | some contents =>
    let bytes := (contents.drop off).take len
    (bytes, if bytes.length < len then some .eof else none)

/-- `chunk` -/
structure Chunk where
  offset : ℤ
  inst : Path

/-- `chunks.ReadAt` -/
def chunksReadAt (s : Store) : List Chunk → ℕ → ℕ → List UInt8 × Option Err
  | [], _, _ => ([], some .eof)
  | c :: chunks, len, off =>
    if c.offset ≤ off then
      let r := instanceReadAt s c.inst len (off - c.offset).toNat
      if r.1.length = len then (r.1, none)
      else if r.2 = none ∨ r.2 = some .eof then
        let rest := chunksReadAt s chunks (len - r.1.length) (off + r.1.length)
        (r.1 ++ rest.1, rest.2)
      else r
    else chunksReadAt s chunks len off

/-- A chunk from the name of an instance, which panics if it is not a number. -/
def chunkOfName (pc : Piece) (name : List UInt8) : Option Chunk :=
  match parseInt name with
  | .error _ => none
  | .ok offset => some ⟨offset, incompleteDirPath pc ++ [name]⟩

/-- `getChunks`; or a panic -/
def getChunks (prov : Provider) (s : Store) (pc : Piece) : Option (List Chunk) :=
  ((prov.order (dirNames s (incompleteDirPath pc))).mapM (chunkOfName pc)).map
    (insertionSort fun c c' => c.offset ≤ c'.offset)

/-- `Completion` -/
def completion (s : Store) (pc : Piece) : Completion :=
  ⟨match s.lookup (completedInstancePath pc) with
    | none => false
    | some contents => decide (contents.length = pc.length), true⟩

/-- `ReadAt`, into a buffer of `len` bytes -/
def readAt (prov : Provider) (s : Store) (pc : Piece) (len off : ℕ) :
    Option (List UInt8 × Option Err) :=
  if (completion s pc).complete then some (instanceReadAt s (completedInstancePath pc) len off)
  else (getChunks prov s pc).map fun chunks => chunksReadAt s chunks len off

/-- `WriteAt`, with the number of bytes written; the instance takes them all. -/
def writeAt (s : Store) (pc : Piece) (data : List UInt8) (off : ℕ) : Store × ℕ :=
  (s.insert (chunkPath pc off) data, data.length)

/-- What is read from an `io.SectionReader` of `n` bytes by a caller that reads until the end, with
buffers of the given sizes, round after round; every round but the last reads something. -/
def readAll (read : ℕ → ℕ → List UInt8 × Option Err) (n : ℕ) (bufs : ℕ → ℕ) :
    ℕ → ℕ → Except Err (List UInt8)
  | 0, _ => .ok []
  | fuel + 1, pos =>
    if n ≤ pos then .ok []
    else
      let r := read (min (bufs fuel) (n - pos)) pos
      match r.2 with
      | none => (readAll read n bufs fuel (pos + r.1.length)).map (r.1 ++ ·)
      | some .eof => .ok r.1
      | some err => .error err

/-- `ReadConsecutiveChunks` -/
def readConsecutiveChunks (s : Store) (chunks : List Chunk) : List UInt8 :=
  chunks.flatMap fun c => (s.lookup c.inst).getD []

/-- `MarkComplete`, with its error, when `Put` reads with buffers of the given sizes; or a panic -/
def markComplete (prov : Provider) (opts : Opts) (bufs : ℕ → ℕ) (s : Store) (pc : Piece) :
    Option (Store × Option Err) :=
  (getChunks prov s pc).map fun incompleteChunks =>
    let r : Except Err (List UInt8) :=
      if prov.consecutive then .ok (readConsecutiveChunks s incompleteChunks)
      else readAll (chunksReadAt s incompleteChunks) pc.length bufs pc.length 0
    match r with
    | .error err => (s, some err)
    | .ok contents =>
      if prov.sized ∧ ¬ opts.noSizedPuts ∧ contents.length ≠ pc.length then (s, some .wrongSize)
      else
        let s := s.insert (completedInstancePath pc) contents
        (if opts.leaveIncompleteChunks then s
          else incompleteChunks.foldl (fun s c => s.erase c.inst) s, none)

/-! ## Chunks -/

variable {s : Store} {p : Path} {contents : List UInt8} {w : Write Unit} {ws : List (Write Unit)}
  {k : ℕ} {pc : Piece} {len off o : ℕ} {bufs : ℕ → ℕ} {prov : Provider} {cs : List (Write Unit)}

theorem instanceReadAt_eq (h : s.lookup p = some contents) (len off : ℕ) :
    instanceReadAt s p len off =
      ((contents.drop off).take len,
        if ((contents.drop off).take len).length < len then some .eof else none) := by
  rw [instanceReadAt, h]

/-- The chunk of a write. -/
def toChunk (pc : Piece) (w : Write Unit) : Chunk := ⟨w.off, chunkPath pc w.off⟩

/-- Writes in the order of their offsets, no two of which overlap. -/
structure Ordered (ws : List (Write Unit)) : Prop where
  sorted : ws.Pairwise fun w w' => w.off < w'.off
  apart : Apart ws

theorem Ordered.rest_eq_none (h : Ordered (w :: ws)) (hk : (w.byte () k).isSome) :
    lastWritten ws () k = none := by
  rw [← Option.not_isSome_iff_eq_none, isSome_lastWritten_iff]
  rintro ⟨w', hw', hbyte⟩
  have hlt := (pairwise_cons.mp h.sorted).1 w' hw'
  have heq := h.apart.disjoint w mem_cons_self w' (mem_cons_of_mem w hw') () k hk hbyte
  omega

theorem Ordered.eq_none_of_lt (h : Ordered (w :: ws)) (hk : k < w.off) :
    lastWritten (w :: ws) () k = none := by
  rw [← Option.not_isSome_iff_eq_none, isSome_lastWritten_iff]
  rintro ⟨w', hw', hbyte⟩
  obtain ⟨-, hlo, -⟩ := isSome_byte_iff.mp hbyte
  rcases mem_cons.mp hw' with rfl | hw'
  · omega
  · have hlt := (pairwise_cons.mp h.sorted).1 w' hw'
    omega

theorem Ordered.tail (h : Ordered (w :: ws)) : Ordered ws :=
  ⟨(pairwise_cons.mp h.sorted).2, h.apart.tail⟩

theorem Ordered.longestRun_cons (h : Ordered (w :: ws)) (hoff : w.off ≤ off) {bytes : List UInt8}
    (hbytes : (w.data.drop (off - w.off)).take len = bytes) :
    longestRun (lastWritten (w :: ws) ()) off len =
      bytes ++ longestRun (lastWritten ws ()) (off + bytes.length) (len - bytes.length) := by
  have hsize : bytes.length = min len (w.data.length - (off - w.off)) := by
    rw [← hbytes, length_take, length_drop]
  -- the bytes of this write are in no other
  have hhere : ∀ i < bytes.length, lastWritten (w :: ws) () (off + i) = bytes[i]? := by
    intro i hi
    have hbyte : w.byte () (off + i) = bytes[i]? := by
      rw [Write.byte, if_pos ⟨rfl, by omega⟩, ← hbytes, getElem?_take_of_lt (by omega),
        getElem?_drop]
      congr 1
      omega
    have hsome : (w.byte () (off + i)).isSome := by
      rw [hbyte, getElem?_eq_getElem hi]
      rfl
    rw [lastWritten, h.rest_eq_none hsome, Option.none_or, hbyte]
  have hsplit := longestRun_add hhere (len - bytes.length)
  rw [Nat.add_sub_cancel' (by omega)] at hsplit
  rw [hsplit]
  by_cases hfull : bytes.length = len
  · rw [hfull, Nat.sub_self, longestRun, longestRun]
  · -- this write has no bytes from here on
    rw [longestRun_congr fun i hi => lastWritten_cons_of_not (by omega)]

/-- The result of a read of what `f` says. -/
def runResult (f : ℕ → Option UInt8) (len off : ℕ) : List UInt8 × Option Err :=
  (longestRun f off len, if (longestRun f off len).length = len then none else some .eof)

/-- **Reading chunks** gives the longest run of bytes. -/
theorem chunksReadAt_eq (h : Ordered ws)
    (hs : ∀ w ∈ ws, s.lookup (chunkPath pc w.off) = some w.data) (hlen : 0 < len) :
    chunksReadAt s (ws.map (toChunk pc)) len off = runResult (lastWritten ws ()) len off := by
  induction ws generalizing len off with
  | nil =>
    have hrun : longestRun (lastWritten ([] : List (Write Unit)) ()) off len = [] :=
      longestRun_of_none rfl len
    rw [runResult, hrun, if_neg (by simpa using hlen.ne)]
    rfl
  | cons w ws ih =>
    have hrest : ∀ {len off : ℕ}, 0 < len →
        chunksReadAt s (ws.map (toChunk pc)) len off = runResult (lastWritten ws ()) len off :=
      ih h.tail fun w' hw' => hs w' (mem_cons_of_mem w hw')
    have hstart : (toChunk pc w).offset ≤ off ↔ w.off ≤ off := Int.ofNat_le
    rw [map_cons, chunksReadAt]
    by_cases hoff : w.off ≤ off
    · have hplace : ((off : ℤ) - w.off).toNat = off - w.off := by omega
      obtain ⟨bytes, hbytes⟩ : ∃ bytes, (w.data.drop (off - w.off)).take len = bytes := ⟨_, rfl⟩
      have hread := instanceReadAt_eq (hs w mem_cons_self) len (off - w.off)
      have hsplit := h.longestRun_cons hoff hbytes
      have hsize : bytes.length ≤ len := hbytes ▸ length_take_le _ _
      rw [hbytes] at hread
      rw [if_pos (hstart.mpr hoff)]
      dsimp only [toChunk]
      rw [hplace, hread]
      dsimp only
      by_cases hfull : bytes.length = len
      · rw [if_pos hfull, runResult, hsplit, hfull, Nat.sub_self, longestRun, append_nil,
          if_pos hfull]
      · rw [if_neg hfull, if_pos (by rw [if_pos (by omega)]; exact .inr rfl),
          hrest (by omega), runResult, runResult, hsplit, length_append]
        have hle := length_longestRun_le (lastWritten ws ()) (off + bytes.length)
          (len - bytes.length)
        generalize longestRun (lastWritten ws ()) _ _ = more at hle ⊢
        rw [if_congr (by omega : more.length = len - bytes.length ↔
          bytes.length + more.length = len) rfl rfl]
    · -- the chunks start behind the place, this one and all that follow
      have hnone := h.eq_none_of_lt (Nat.lt_of_not_le hoff)
      have hnone' : lastWritten ws () off = none := by
        rw [lastWritten, Option.or_eq_none_iff] at hnone
        exact hnone.1
      rw [if_neg fun hle => hoff (hstart.mp hle), hrest hlen, runResult, runResult,
        longestRun_of_none hnone, longestRun_of_none hnone']

theorem flatMap_data (h : Ordered ws) {p stop : ℕ}
    (hcover : ∀ k, p ≤ k → k < stop → (lastWritten ws () k).isSome)
    (hin : ∀ w ∈ ws, w.data ≠ [] → p ≤ w.off ∧ w.off + w.data.length ≤ stop) :
    ws.flatMap (·.data) = longestRun (lastWritten ws ()) p (stop - p) := by
  induction ws generalizing p with
  | nil =>
    have hrun : longestRun (lastWritten ([] : List (Write Unit)) ()) p (stop - p) = [] :=
      longestRun_of_none rfl _
    rw [hrun]
    rfl
  | cons w ws ih =>
    have htail := h.tail
    rw [flatMap_cons]
    by_cases hdata : w.data = []
    · -- a write without bytes
      have hbyte : ∀ k, lastWritten (w :: ws) () k = lastWritten ws () k :=
        fun k => lastWritten_cons_of_not (by rw [hdata, length_nil]; omega)
      rw [hdata, nil_append, longestRun_congr fun i _ => hbyte i]
      refine ih htail ?_ fun w' hw' => hin w' (mem_cons_of_mem w hw')
      intro k hlo hhi
      rw [← hbyte]
      exact hcover k hlo hhi
    · have hpos := length_pos_iff.mpr hdata
      obtain ⟨hlo, hhi⟩ := hin w mem_cons_self hdata
      -- the first place is written, and not by a later write
      have hoff : w.off = p := by
        by_contra hne
        have hsome := hcover p (le_refl p) (by omega)
        rw [h.eq_none_of_lt (by omega)] at hsome
        cases hsome
      have hbehind : ∀ i, p + w.data.length ≤ i →
          lastWritten (w :: ws) () i = lastWritten ws () i :=
        fun i hi => lastWritten_cons_of_not (by omega)
      have hbytes : (w.data.drop (p - w.off)).take (stop - p) = w.data := by
        rw [hoff, Nat.sub_self, drop_zero, take_of_length_le (by omega)]
      rw [h.longestRun_cons hoff.le hbytes, Nat.sub_sub]
      refine congrArg (w.data ++ ·) (ih htail ?_ ?_)
      · intro k hlo' hhi'
        rw [← hbehind k hlo']
        exact hcover k (by omega) hhi'
      · intro w' hw' hdata'
        have hpos' := length_pos_iff.mpr hdata'
        refine ⟨?_, (hin w' (mem_cons_of_mem w hw') hdata').2⟩
        -- a write that starts inside of the first one would overlap with it
        by_contra hlt
        have hgt := (pairwise_cons.mp h.sorted).1 w' hw'
        have heq := h.apart.disjoint w mem_cons_self w' (mem_cons_of_mem w hw') () w'.off
          (isSome_byte_iff.mpr ⟨rfl, by omega, by omega⟩)
          (isSome_byte_iff.mpr ⟨rfl, le_refl _, by omega⟩)
        omega

/-! ## The chunks of a piece -/

theorem mem_dirNames {dir : Path} {name : List UInt8} :
    name ∈ dirNames s dir ↔ dir ++ [name] ∈ s := by
  rw [dirNames, mem_filterMap, AList.mem_keys]
  constructor
  · rintro ⟨p, hp, hname⟩
    split at hname
    · next hdir =>
      rw [← hdir, dropLast_append_getLast? name hname]
      exact hp
    · cases hname
  · intro h
    exact ⟨_, h, by simp⟩

theorem nodup_dirNames (s : Store) (dir : Path) : (dirNames s dir).Nodup := by
  refine s.keys_nodup.filterMap ?_
  intro p p' name hp hp'
  rw [Option.mem_def] at hp hp'
  split at hp
  · next hdir =>
    split at hp'
    · next hdir' =>
      rw [← dropLast_append_getLast? name hp, ← dropLast_append_getLast? name hp', hdir, hdir']
    · cases hp'
  · cases hp

theorem value_formatInt (o : ℕ) : value (formatInt o) = o := by
  rw [formatInt, if_neg (by omega), Int.natAbs_natCast, value_formatNat]

theorem formatInt_inj {o' : ℕ} (h : formatInt o = formatInt o') : o = o' := by
  rw [← value_formatInt o, h, value_formatInt]

/-- The chunks in the directory of the piece are the last writes. -/
def Holds (pc : Piece) (s : Store) (ws : List (Write Unit)) : Prop :=
  ∀ name d, s.lookup (incompleteDirPath pc ++ [name]) = some d ↔
    ∃ o : ℕ, name = formatInt o ∧ lastAt ws () o = some d

theorem Holds.lookup (h : Holds pc s ws) {d : List UInt8} :
    s.lookup (chunkPath pc o) = some d ↔ lastAt ws () o = some d := by
  rw [chunkPath, h]
  constructor
  · rintro ⟨o', ho', hd⟩
    rwa [formatInt_inj ho']
  · exact fun hd => ⟨o, rfl, hd⟩

theorem Holds.write (h : Holds pc s ws) (w : Write Unit) :
    Holds pc (writeAt s pc w.data w.off).1 (ws ++ [w]) := by
  intro name d
  rw [writeAt]
  dsimp only
  by_cases hname : name = formatInt w.off
  · subst hname
    rw [← chunkPath, AList.lookup_insert]
    constructor
    · intro hd
      exact ⟨w.off, rfl, by rw [lastAt_append, if_pos ⟨rfl, rfl⟩, hd]⟩
    · rintro ⟨o, ho, hd⟩
      obtain rfl := formatInt_inj ho
      rwa [lastAt_append, if_pos ⟨rfl, rfl⟩] at hd
  · have hne : incompleteDirPath pc ++ [name] ≠ chunkPath pc w.off := by
      intro heq
      exact hname (singleton_inj.mp (append_cancel_left heq))
    rw [AList.lookup_insert_ne hne, h]
    refine exists_congr fun o => and_congr_right fun ho => ?_
    rw [lastAt_append, if_neg]
    rintro ⟨-, rfl⟩
    exact hname ho

theorem mapM_eq_map {α β : Type} {f : α → Option β} {g : α → β} {l : List α}
    (h : ∀ a ∈ l, f a = some (g a)) : l.mapM f = some (l.map g) := by
  induction l with
  | nil => rfl
  | cons a l ih =>
    rw [mapM_cons, h a mem_cons_self, ih fun b hb => h b (mem_cons_of_mem a hb)]
    rfl

theorem exists_offsets (h : Holds pc s ws) {names : List (List UInt8)}
    (hperm : names.Perm (dirNames s (incompleteDirPath pc))) :
    ∃ os : List ℕ, names = os.map (fun o : ℕ => formatInt o) ∧ os.Nodup ∧
      ∀ o, o ∈ os ↔ (lastAt ws () o).isSome := by
  have hmem : ∀ name, name ∈ names ↔ ∃ o : ℕ, name = formatInt o ∧ (lastAt ws () o).isSome := by
    intro name
    rw [hperm.mem_iff, mem_dirNames, ← AList.lookup_isSome, Option.isSome_iff_exists]
    constructor
    · rintro ⟨d, hd⟩
      obtain ⟨o, ho, hlast⟩ := (h name d).mp hd
      exact ⟨o, ho, by rw [hlast]; rfl⟩
    · rintro ⟨o, ho, hlast⟩
      obtain ⟨d, hd⟩ := Option.isSome_iff_exists.mp hlast
      exact ⟨d, (h name d).mpr ⟨o, ho, hd⟩⟩
  obtain ⟨os, rfl⟩ : ∃ os : List ℕ, names = os.map fun o : ℕ => formatInt o := by
    refine ⟨names.map value, ?_⟩
    rw [map_map]
    conv_lhs => rw [← map_id names]
    refine map_congr_left fun name hname => ?_
    obtain ⟨o, rfl, -⟩ := (hmem name).mp hname
    rw [comp_apply, value_formatInt, id]
  refine ⟨os, rfl, (hperm.nodup_iff.mpr (nodup_dirNames _ _)).of_map, fun o => ?_⟩
  have ho := hmem (formatInt o)
  rw [mem_map] at ho
  constructor
  · intro hin
    obtain ⟨o', heq, hsome⟩ := ho.mp ⟨o, hin, rfl⟩
    rwa [formatInt_inj heq]
  · intro hsome
    obtain ⟨o', hin, heq⟩ := ho.mpr ⟨o, rfl, hsome⟩
    rwa [← formatInt_inj heq]

theorem mapM_chunkOfName {pc : Piece} {os : List ℕ} (h : ∀ o ∈ os, o < 2 ^ 63) :
    (os.map fun o : ℕ => formatInt o).mapM (chunkOfName pc) =
      some (os.map fun o : ℕ => ⟨o, chunkPath pc o⟩) := by
  rw [mapM_map]
  refine mapM_eq_map fun o ho => ?_
  have hlt := h o ho
  rw [comp_apply, chunkOfName, parseInt_formatInt, if_pos (by omega)]
  rfl

/-- **The chunks** are the last writes from each offset on, in the order of the offsets. -/
theorem getChunks_eq (prov : Provider) (h : Holds pc s ws) (hbound : ∀ w ∈ ws, w.off < 2 ^ 63) :
    ∃ cs : List (Write Unit), getChunks prov s pc = some (cs.map (toChunk pc)) ∧
      (cs.Pairwise fun w w' => w.off < w'.off) ∧
      ∀ w, w ∈ cs ↔ lastAt ws () w.off = some w.data := by
  obtain ⟨os, hnames, hnodup, hos⟩ :=
    exists_offsets h (prov.perm (dirNames s (incompleteDirPath pc)))
  have hparse := @mapM_chunkOfName pc os fun o ho => by
    obtain ⟨d, hd⟩ := Option.isSome_iff_exists.mp ((hos o).mp ho)
    exact hbound _ (mem_of_lastAt hd)
  refine ⟨(os.insertionSort (· ≤ ·)).map fun o => ⟨(), o, (lastAt ws () o).getD []⟩, ?_, ?_, ?_⟩
  · rw [getChunks, hnames, hparse, Option.map_some, map_map]
    congr 1
    exact (map_insertionSort (fun o o' : ℕ => o ≤ o')
      (fun c c' : Chunk => c.offset ≤ c'.offset) (fun o : ℕ => ⟨o, chunkPath pc o⟩) os
      fun a _ b _ => Int.ofNat_le.symm).symm
  · rw [pairwise_map]
    have hsorted := (sortedLE_insertionSort (l := os)).sortedLT_of_nodup
      ((perm_insertionSort _ os).nodup_iff.mpr hnodup)
    exact hsorted.pairwise
  · intro w
    rw [mem_map]
    constructor
    · rintro ⟨o, ho, rfl⟩
      rw [mem_insertionSort, hos] at ho
      obtain ⟨d, hd⟩ := Option.isSome_iff_exists.mp ho
      rw [hd]
      rfl
    · intro hw
      refine ⟨w.off, ?_, ?_⟩
      · rw [mem_insertionSort, hos, hw]
        rfl
      · rw [hw]
        rfl

/-! ## Pieces -/

/-- The writes, one after the other. -/
def writeAll (s : Store) (pc : Piece) (ws : List (Write Unit)) : Store :=
  ws.foldl (fun s w => (writeAt s pc w.data w.off).1) s

/-- No chunk of the piece is there. -/
def Fresh (pc : Piece) (s : Store) : Prop := ∀ name, incompleteDirPath pc ++ [name] ∉ s

theorem chunkPath_ne (pc : Piece) (o : ℕ) : completedInstancePath pc ≠ chunkPath pc o := by
  intro h
  have := congrArg length h
  cases this

theorem writeAll_append (s : Store) (pc : Piece) (ws : List (Write Unit)) (w : Write Unit) :
    writeAll s pc (ws ++ [w]) = (writeAt (writeAll s pc ws) pc w.data w.off).1 := by
  rw [writeAll, foldl_append]
  rfl

theorem holds_writeAll (hs : Fresh pc s) (ws : List (Write Unit)) :
    Holds pc (writeAll s pc ws) ws ∧
      (writeAll s pc ws).lookup (completedInstancePath pc) =
        s.lookup (completedInstancePath pc) := by
  induction ws using reverseRecOn with
  | nil =>
    refine ⟨fun name d => ⟨fun hd => ?_, ?_⟩, rfl⟩
    · have hsome : (s.lookup (incompleteDirPath pc ++ [name])).isSome :=
        Option.isSome_iff_exists.mpr ⟨d, hd⟩
      exact absurd (AList.lookup_isSome.mp hsome) (hs name)
    · rintro ⟨o, -, hd⟩
      cases hd
  | append_singleton ws w ih =>
    rw [writeAll_append]
    refine ⟨ih.1.write w, ?_⟩
    rw [writeAt, AList.lookup_insert_ne (chunkPath_ne pc w.off), ih.2]

theorem completion_congr {s' : Store}
    (h : s.lookup (completedInstancePath pc) = s'.lookup (completedInstancePath pc)) :
    completion s pc = completion s' pc := by
  rw [completion, completion, h]

theorem exists_chunks (prov : Provider) (h : Holds pc s ws) (hbound : ∀ w ∈ ws, w.off < 2 ^ 63)
    (hws : Apart ws) :
    ∃ cs : List (Write Unit), getChunks prov s pc = some (cs.map (toChunk pc)) ∧ Ordered cs ∧
      (∀ w ∈ cs, s.lookup (chunkPath pc w.off) = some w.data) ∧ (∀ w ∈ cs, w ∈ ws) ∧
      lastWritten cs () = lastWritten ws () := by
  obtain ⟨cs, hchunks, hsorted, hmem⟩ := getChunks_eq prov h hbound
  have hsub : ∀ w ∈ cs, w ∈ ws := fun w hw => mem_of_lastAt ((hmem w).mp hw)
  have hcs : Apart cs :=
    ⟨fun w hw w' hw' => hws.repeats w (hsub w hw) w' (hsub w' hw'),
      fun w hw w' hw' => hws.disjoint w (hsub w hw) w' (hsub w' hw')⟩
  have hat : ∀ o, lastAt cs () o = lastAt ws () o := by
    intro o
    cases hd : lastAt cs () o with
    | some d => exact ((hmem ⟨(), o, d⟩).mp (mem_of_lastAt hd)).symm
    | none =>
      cases hd' : lastAt ws () o with
      | none => rfl
      | some d =>
        have hsome := isSome_lastAt ((hmem ⟨(), o, d⟩).mpr hd')
        rw [hd] at hsome
        cases hsome
  refine ⟨cs, hchunks, ⟨hsorted, hcs⟩, fun w hw => h.lookup.mpr ((hmem w).mp hw), hsub, ?_⟩
  funext k
  exact lastWritten_congr hcs hws hat k

theorem readAll_eq {read : ℕ → ℕ → List UInt8 × Option Err} (hbufs : ∀ i, 0 < bufs i)
    (hread : ∀ len pos, 0 < len → pos + len ≤ contents.length →
      read len pos = ((contents.drop pos).take len, none)) {fuel pos : ℕ}
    (hfuel : contents.length ≤ pos + fuel) :
    readAll read contents.length bufs fuel pos = .ok (contents.drop pos) := by
  induction fuel generalizing pos with
  | zero =>
    rw [add_zero] at hfuel
    rw [readAll, drop_eq_nil_of_le hfuel]
  | succ fuel ih =>
    rw [readAll]
    split
    · next hdone => rw [drop_eq_nil_of_le hdone]
    · next hmore =>
      have hbuf := hbufs fuel
      have hlen : ((contents.drop pos).take (min (bufs fuel) (contents.length - pos))).length =
          min (bufs fuel) (contents.length - pos) := by
        rw [length_take, length_drop]
        omega
      dsimp only
      rw [hread _ pos (by omega) (by omega)]
      dsimp only
      rw [hlen, ih (by omega)]
      have hdrop := take_append_drop (min (bufs fuel) (contents.length - pos)) (contents.drop pos)
      rw [drop_drop] at hdrop
      exact congrArg Except.ok hdrop

theorem lookup_foldl_erase {chunks : List Chunk} (h : ∀ c ∈ chunks, p ≠ c.inst) (s : Store) :
    (chunks.foldl (fun s c => s.erase c.inst) s).lookup p = s.lookup p := by
  induction chunks generalizing s with
  | nil => rfl
  | cons c chunks ih =>
    rw [foldl_cons, ih fun c' hc' => h c' (mem_cons_of_mem c hc'),
      AList.lookup_erase_ne (h c mem_cons_self)]

theorem instanceReadAt_run {f : ℕ → Option UInt8} {n : ℕ} (hfull : ∀ i < n, (f i).isSome)
    (hs : s.lookup p = some (longestRun f 0 n)) (h : off + len ≤ n ∨ ∀ i, n ≤ i → f i = none) :
    instanceReadAt s p len off = runResult f len off := by
  have hle := length_longestRun_le f off len
  rw [instanceReadAt_eq hs, ← longestRun_part hfull h, runResult]
  by_cases hlen : (longestRun f off len).length = len
  · rw [if_neg (by omega), if_pos hlen]
  · rw [if_pos (by omega), if_neg hlen]

theorem contents_eq (hbufs : ∀ i, 0 < bufs i) (hcs : Ordered cs)
    (hs : ∀ w ∈ cs, s.lookup (chunkPath pc w.off) = some w.data)
    (hcover : ∀ k < pc.length, (lastWritten cs () k).isSome)
    (hin : prov.consecutive = true → ∀ w ∈ cs, w.off + w.data.length ≤ pc.length) :
    (if prov.consecutive then .ok (readConsecutiveChunks s (cs.map (toChunk pc)))
      else readAll (chunksReadAt s (cs.map (toChunk pc))) pc.length bufs pc.length 0) =
      (.ok (longestRun (lastWritten cs ()) 0 pc.length) : Except Err (List UInt8)) := by
  have hlen := (@getElem?_longestRun _ (lastWritten cs ()) 0 pc.length fun i hi => by
    rw [zero_add]
    exact hcover i hi).1
  split
  · next hconsecutive =>
    have hdata : readConsecutiveChunks s (cs.map (toChunk pc)) = cs.flatMap (·.data) := by
      rw [readConsecutiveChunks, flatMap_map]
      refine flatMap_congr fun w hw => ?_
      rw [toChunk, hs w hw, Option.getD_some]
    rw [hdata, flatMap_data hcs (fun k _ hk => hcover k hk) fun w hw _ =>
      ⟨Nat.zero_le _, hin hconsecutive w hw⟩, Nat.sub_zero]
  · generalize hcontents : longestRun (lastWritten cs ()) 0 pc.length = contents at hlen
    rw [← hlen]
    refine readAll_eq hbufs (fun len pos hpos hfit => ?_) (by omega)
    rw [chunksReadAt_eq hcs hs hpos, runResult, longestRun_part hcover (.inl (by omega)),
      hcontents, if_pos]
    rw [length_take, length_drop]
    omega

theorem markComplete_eq (opts : Opts) (hchunks : getChunks prov s pc = some (cs.map (toChunk pc)))
    (hread : (if prov.consecutive then .ok (readConsecutiveChunks s (cs.map (toChunk pc)))
      else readAll (chunksReadAt s (cs.map (toChunk pc))) pc.length bufs pc.length 0) =
      (.ok contents : Except Err (List UInt8))) (hlen : contents.length = pc.length) :
    ∃ s', markComplete prov opts bufs s pc = some (s', none) ∧
      s'.lookup (completedInstancePath pc) = some contents := by
  rw [markComplete, hchunks, Option.map_some]
  dsimp only
  rw [hread]
  dsimp only
  rw [if_neg fun h => h.2.2 hlen]
  refine ⟨_, rfl, ?_⟩
  split
  · exact AList.lookup_insert _
  · -- the chunks are deleted, and have other paths
    rw [lookup_foldl_erase, AList.lookup_insert]
    intro c hc
    obtain ⟨w, -, rfl⟩ := mem_map.mp hc
    exact chunkPath_ne pc w.off

/-- **Reads give what was written.** After writes that do not overlap, a read gives the longest run
of bytes, as they were written last; and if the writes cover the piece, `MarkComplete` makes it
complete and leaves the reads of the piece as they are. -/
theorem reads_written (prov : Provider) (opts : Opts) {bufs : ℕ → ℕ} (hbufs : ∀ i, 0 < bufs i)
    {pc : Piece} {s : Store} (hfresh : Fresh pc s)
    (hincomplete : (completion s pc).complete = false) {ws : List (Write Unit)}
    (hbound : ∀ w ∈ ws, w.off < 2 ^ 63) (hws : Apart ws) :
    (∀ len off, 0 < len → readAt prov (writeAll s pc ws) pc len off =
      some (runResult (lastWritten ws ()) len off)) ∧
    ((∀ k < pc.length, (lastWritten ws () k).isSome) →
      (prov.consecutive = true → ∀ w ∈ ws, w.off + w.data.length ≤ pc.length) →
      ∃ s', markComplete prov opts bufs (writeAll s pc ws) pc = some (s', none) ∧
        completion s' pc = ⟨true, true⟩ ∧
        ∀ len off, 0 < len →
          (off + len ≤ pc.length ∨ ∀ w ∈ ws, w.off + w.data.length ≤ pc.length) →
          readAt prov s' pc len off = readAt prov (writeAll s pc ws) pc len off) := by
  obtain ⟨hholds, hcompleted⟩ := holds_writeAll hfresh ws
  obtain ⟨cs, hchunks, hcs, hs, hsub, hlast⟩ := exists_chunks prov hholds hbound hws
  have hread : ∀ len off, 0 < len → readAt prov (writeAll s pc ws) pc len off =
      some (runResult (lastWritten ws ()) len off) := by
    intro len off hlen
    rw [readAt, completion_congr hcompleted, hincomplete, hchunks, Option.map_some,
      chunksReadAt_eq hcs hs hlen, hlast]
    rfl
  refine ⟨hread, fun hcover hin => ?_⟩
  have hcontents := contents_eq hbufs hcs hs (by rw [hlast]; exact hcover)
    fun hc w hw => hin hc w (hsub w hw)
  rw [hlast] at hcontents
  have hlen := (@getElem?_longestRun _ (lastWritten ws ()) 0 pc.length fun i hi => by
    rw [zero_add]
    exact hcover i hi).1
  obtain ⟨s', hmark, hs'⟩ := markComplete_eq opts hchunks hcontents hlen
  have hcomplete : completion s' pc = ⟨true, true⟩ := by
    rw [completion, hs']
    dsimp only
    rw [decide_eq_true hlen]
  refine ⟨s', hmark, hcomplete, fun len off hpos hpart => ?_⟩
  rw [hread len off hpos, readAt, hcomplete, if_pos rfl, instanceReadAt_run hcover hs']
  refine hpart.imp_right fun hwithin k hk => ?_
  rw [← Option.not_isSome_iff_eq_none, isSome_lastWritten_iff]
  rintro ⟨w, hw, hbyte⟩
  obtain ⟨-, -, hhi⟩ := isSome_byte_iff.mp hbyte
  have := hwithin w hw
  omega

/-- A provider that lists names the other way round. -/
def backwards : Provider := ⟨reverse, reverse_perm, false, true⟩

/-- A piece of five bytes. -/
def fiveBytes : Piece := ⟨[104], 5⟩

/-- The last two bytes, and the first three twice. -/
def threeWrites : List (Write Unit) := [⟨(), 3, [4, 5]⟩, ⟨(), 0, [9, 9, 9]⟩, ⟨(), 0, [1, 2, 3]⟩]

theorem reads_written_sample :
    readAt backwards (writeAll ∅ fiveBytes threeWrites) fiveBytes 6 1 =
        some ([2, 3, 4, 5], some .eof) ∧
      ∃ s', markComplete backwards ⟨false, false⟩ (fun _ => 2) (writeAll ∅ fiveBytes threeWrites)
          fiveBytes = some (s', none) ∧ completion s' fiveBytes = ⟨true, true⟩ ∧
        readAt backwards s' fiveBytes 6 1 = some ([2, 3, 4, 5], some .eof) := by
  have hapart : Apart threeWrites := by
    refine ⟨by decide, fun w hw w' hw' a k hk hk' => ?_⟩
    obtain ⟨-, hlo, hhi⟩ := isSome_byte_iff.mp hk
    obtain ⟨-, hlo', hhi'⟩ := isSome_byte_iff.mp hk'
    simp only [threeWrites, mem_cons, not_mem_nil, or_false] at hw hw'
    rcases hw with rfl | rfl | rfl <;> rcases hw' with rfl | rfl | rfl <;>
      simp only [length_cons, length_nil] at hlo hhi hlo' hhi' ⊢ <;> omega
  obtain ⟨hread, hmark⟩ := @reads_written backwards ⟨false, false⟩ (fun _ => 2)
    (fun _ => two_pos) fiveBytes ∅ (fun _ => AList.notMem_empty _) rfl threeWrites (by decide)
    hapart
  have hbefore : readAt backwards (writeAll ∅ fiveBytes threeWrites) fiveBytes 6 1 =
      some ([2, 3, 4, 5], some .eof) :=
    (hread 6 1 (by decide)).trans (by decide)
  obtain ⟨s', hs', hcomplete, hsame⟩ := hmark (by decide) (by decide)
  exact ⟨hbefore, s', hs', hcomplete, (hsame 6 1 (by decide) (.inr (by decide))).trans hbefore⟩

end ReliableBT.Resource
