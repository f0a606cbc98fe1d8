import ReliableBT.Lib.Copy
import ReliableBT.Lib.Outcome
import ReliableBT.Storage.Paths
import ReliableBT.Storage.Segments

/-!
# Requests to a webseed (`webseed/client.go`, `webseed/request.go`)

A webseed is an HTTP server that has the files of a torrent. `NewRequest` cuts a range of the
torrent's data into one part for each file that the range touches, and asks for them one after the
other. A part that is not a whole file is asked for with a `Range` header. The server may follow it
and answer 206, or answer 200 with the whole file; the client then drops what is in front of its
part, unless that is too much (48 KiB).

What the network does is a parameter: each part has an `Answer`, that is, what `HttpClient.Do`
returns, the body as the wrapper of the client gives it, and whether the request had been canceled
by then. Which URLs `http.NewRequest` accepts is one, too. Offsets are those of a torrent of less
than `2 ^ 63` bytes.

* `NewRequest` fails, by a panic, only if a URL is bad or the client has refused the info
  (`Client.newRequest_parts`).
* `readParts_length`: bytes without an error are as many as were asked for, whatever was answered.
* `readParts_range`: if the answers are from the files, they are the right ones.
-/

open List Nat

namespace ReliableBT.Webseed

open Segments Storage

/-! ## Requests -/

/-- `http.Request`: the URL, and the first and last byte of the `Range` header. The last one is in
front of the first one if the range is empty. -/
structure HttpRequest where
  url : List UInt8
  range : Option (ℕ × ℤ)
  deriving DecidableEq

/-- The panics of `NewRequest`. -/
inductive Panic
  | index
  | badUrl
  | outOfFileBounds
  deriving DecidableEq, Repr

/-- `strings.HasSuffix(url, "/")` -/
def endsInSlash (url : List UInt8) : Bool := url.getLast? == some 47

/-- `trailingPath` -/
def trailingPath (infoName : List UInt8) (fileComps : List (List UInt8))
    (pathEscaper : List (List UInt8) → List UInt8) : List UInt8 :=
  pathEscaper (infoName :: fileComps)

/-- `newRequest`. The index of a file that is not there and a bad URL end in a panic. -/
def newRequest (accepts : List UInt8 → Bool) (url : List UInt8) (fileIndex : ℕ) (info : NamedInfo)
    (offset length : ℕ) (pathEscaper : List (List UInt8) → List UInt8) :
    Except Panic HttpRequest :=
  match info.upvertedFiles[fileIndex]? with
  | none => .error .index
  | some fileInfo =>
    let url := if endsInSlash url then url ++ trailingPath info.name fileInfo.path pathEscaper
      else url
    if accepts url then
      .ok ⟨url,
        if offset ≠ 0 ∨ (length : ℤ) ≠ fileInfo.length then some (offset, offset + length - 1)
        else none⟩
    else .error .badUrl

/-- `requestPart`. The index of the file is in the URL only. -/
structure RequestPart where
  fileIndex : ℕ
  req : HttpRequest
  e : Extent

/-- `Client` -/
structure Client where
  url : List UInt8
  pathEscaper : List (List UInt8) → List UInt8
  fileIndex : List Extent := []
  info : Option NamedInfo := none

/-- A torrent with a list of files is refused if the URL is not that of a directory. -/
def Client.Refuses (me : Client) (info : NamedInfo) : Prop :=
  endsInSlash me.url = false ∧ info.files ≠ []

instance (me : Client) (info : NamedInfo) : Decidable (me.Refuses info) :=
  inferInstanceAs (Decidable (_ ∧ _))

/-- The panics of a request inside the torrent. A refused info leaves the index empty. -/
def Client.Panics (me : Client) (info : NamedInfo) (p : Panic) : Prop :=
  p = .badUrl ∨ p = .outOfFileBounds ∧ me.Refuses info

/-- The lengths that `common.LengthIterFromUpvertedFiles` goes through. -/
def fileLengths (info : NamedInfo) : List ℕ := info.upvertedFiles.map fun f => f.length.toNat

/-- `Client.SetInfo` -/
def Client.setInfo (me : Client) (info : NamedInfo) : Client :=
  if me.Refuses info then me
  else { me with fileIndex := newIndex (fileLengths info), info := some info }

/-- The callback of `NewRequest`. After a panic there is no next call. -/
def Client.addPart (accepts : List UInt8 → Bool) (me : Client) :
    Except Panic (List RequestPart) → ℕ → Extent → Except Panic (List RequestPart) × Bool
  | .error e, _, _ => (.error e, false)
  | .ok parts, i, e =>
    match me.info with
    | none => (.error .index, false)
    | some info =>
      match newRequest accepts me.url i info e.start e.length me.pathEscaper with
      | .error p => (.error p, false)
      | .ok req => (.ok (parts ++ [⟨i, req, e⟩]), true)

/-- `Client.NewRequest`, up to the goroutine that reads the responses -/
def Client.newRequest (accepts : List UInt8 → Bool) (me : Client) (r : Extent) :
    Except Panic (List RequestPart) :=
  let (requestParts, found) := locate me.fileIndex r (me.addPart accepts) (.ok [])
  requestParts >>= fun parts => if found then .ok parts else .error .outOfFileBounds

/-! ## Responses -/

/-- The errors of a part. `ErrBadResponse` is `okButRange` or `unhandled`. -/
inductive PartError (ε : Type)
  | transport (e : ε)
  | canceled
  | read (e : ε)
  | length (got expected : ℕ)
  | copy (e : CopyError ε)
  | okButRange
  | tooFast
  | unhandled (statusCode : ℤ)
  deriving DecidableEq, Repr

/-- `http.Response` -/
structure Response (ε : Type) where
  statusCode : ℤ
  body : List (Read UInt8 ε)

/-- `requestPartResult`, and whether the context of the request is canceled when it is received. -/
structure Answer (ε : Type) where
  result : Except ε (Response ε)
  canceled : Bool := false

variable {ε : Type}

/-- `recvPartResult`: what is written to the buffer, and the error. Too short a body in front of the
part is left to the second `CopyN`. -/
def recvPartResult (part : RequestPart) (answer : Answer ε) : List UInt8 × Option (PartError ε) :=
  match answer.result with
  | .error e => ([], some (.transport e))
  | .ok resp =>
    if answer.canceled then ([], some .canceled)
    else if resp.statusCode = 206 then
      match copy resp.body with
      | (copied, some e) => (copied, some (.read e))
      | (copied, none) =>
        if copied.length ≠ part.e.length then
          (copied, some (.length copied.length part.e.length))
        else (copied, none)
    else if resp.statusCode = 200 then
      if part.e.start < 48 * 2 ^ 10 then
        let discarded := copyN part.e.start resp.body
        let copied := copyN part.e.length discarded.2.2
        (copied.1, copied.2.1.map .copy)
      else ([], some .okButRange)
    else if resp.statusCode = 503 then ([], some .tooFast)
    else ([], some (.unhandled resp.statusCode))

/-- `RequestResult`. The error says which request it is of. -/
structure RequestResult (ε : Type) where
  bytes : List UInt8
  err : Option (HttpRequest × PartError ε)

/-- `readRequestPartResponses`, with the answers from the `k`-th on -/
def readRequestPartResponses (answers : ℕ → Answer ε) : ℕ → List RequestPart → RequestResult ε
  | _, [] => ⟨[], none⟩
  | k, part :: parts =>
    match recvPartResult part (answers k) with
    | (b, some e) => ⟨b, some (part.req, e)⟩
    | (b, none) =>
      let rest := readRequestPartResponses answers (k + 1) parts
      ⟨b ++ rest.bytes, rest.err⟩

/-! ## What is asked for -/

/-- The bytes of a file that a request asks for. -/
def HttpRequest.asked (req : HttpRequest) (file : List UInt8) : List UInt8 :=
  match req.range with
  | none => file
  | some (first, last) => (file.drop first).take (last + 1 - first).toNat

theorem newRequest_asked {accepts : List UInt8 → Bool} {url : List UInt8} {i offset length : ℕ}
    {info : NamedInfo} {pathEscaper : List (List UInt8) → List UInt8} {file : List UInt8}
    (hfile : info.upvertedFiles[i]?.map (·.length) = some (file.length : ℤ)) :
    Ends (· = .badUrl) (fun req => req.asked file = (file.drop offset).take length)
      (newRequest accepts url i info offset length pathEscaper) := by
  obtain ⟨fileInfo, hi, hlen⟩ := Option.map_eq_some_iff.mp hfile
  rw [newRequest, hi]
  dsimp only
  generalize (if endsInSlash url then _ else url) = url'
  by_cases hok : accepts url' = true
  · rw [if_pos hok, ends_ok, HttpRequest.asked]
    dsimp only
    by_cases hpart : offset ≠ 0 ∨ (length : ℤ) ≠ fileInfo.length
    · have hcount : ((offset : ℤ) + length - 1 + 1 - offset).toNat = length := by omega
      rw [if_pos hpart]
      dsimp only
      rw [hcount]
    · rw [if_neg hpart]
      dsimp only
      obtain ⟨rfl, rfl⟩ : offset = 0 ∧ length = file.length := by omega
      rw [drop_zero, take_length]
  · rw [if_neg hok]
    exact ends_error.mpr rfl

/-- The parts of a request, as the index has cut it. -/
def PartsOf (files : List (List UInt8)) (cut : List (ℕ × Extent)) (parts : List RequestPart) :
    Prop :=
  List.Forall₂ (fun c part => part.fileIndex = c.1 ∧ part.e = c.2 ∧
    ∀ file, files[c.1]? = some file →
      part.req.asked file = (file.drop c.2.start).take c.2.length) cut parts

variable {accepts : List UInt8 → Bool} {files : List (List UInt8)}

variable {info : NamedInfo} {cut : List (ℕ × Extent)} {i p len k : ℕ} {parts : List RequestPart}
  {answers : ℕ → Answer ε}

theorem visitParts_addPart {me : Client} (hinfo : me.info = some info)
    (hfiles : info.upvertedFiles.map (·.length) = files.map fun f => (f.length : ℤ))
    {done : List (ℕ × Extent)} (hcut : ∀ c ∈ cut, c.1 < files.length) {acc : List RequestPart}
    (hacc : PartsOf files done acc) :
    Ends (· = .badUrl) (PartsOf files (done ++ cut))
      (visitParts (me.addPart accepts) cut (.ok acc)) := by
  induction cut generalizing done acc with
  | nil =>
    rw [append_nil]
    exact hacc
  | cons c cut ih =>
    obtain ⟨i, e⟩ := c
    have hi : i < files.length := hcut (i, e) mem_cons_self
    have hfile : info.upvertedFiles[i]?.map (·.length) = some (files[i].length : ℤ) := by
      rw [← getElem?_map, hfiles, getElem?_map, getElem?_eq_getElem hi]
      rfl
    have hasked := @newRequest_asked accepts me.url i e.start e.length info me.pathEscaper _ hfile
    rw [visitParts, Client.addPart, hinfo]
    dsimp only
    cases hreq : Webseed.newRequest accepts me.url i info e.start e.length me.pathEscaper with
    | error p =>
      rw [hreq] at hasked
      exact hasked
    | ok req =>
      rw [hreq] at hasked
      dsimp only
      have hpart : PartsOf files (done ++ [(i, e)]) (acc ++ [⟨i, req, e⟩]) := by
        refine rel_append hacc (.cons ⟨rfl, rfl, fun file hsome => ?_⟩ .nil)
        rw [getElem?_eq_getElem hi, Option.some_inj] at hsome
        rw [← hsome]
        exact hasked
      have hrest := ih (fun c hc => hcut c (mem_cons_of_mem _ hc)) hpart
      rwa [append_assoc, singleton_append] at hrest

/-- **`NewRequest`** asks for the parts of the files that make up the range. -/
theorem Client.newRequest_parts {url : List UInt8} {pathEscaper : List (List UInt8) → List UInt8}
    (hfiles : info.upvertedFiles.map (·.length) = files.map fun f => (f.length : ℤ)) {r : Extent}
    (hpos : 0 < r.length) (hfit : r.stop ≤ files.flatten.length) :
    Ends ((Client.mk url pathEscaper [] none).Panics info)
      (fun parts => ∃ i cut, Tiles (files.map length) i r.start r.length cut ∧
        PartsOf files cut parts)
      (((Client.mk url pathEscaper [] none).setInfo info).newRequest accepts r) := by
  rw [setInfo]
  by_cases hrefuses : (Client.mk url pathEscaper [] none).Refuses info
  · rw [if_pos hrefuses]
    exact .inr ⟨rfl, hrefuses⟩
  · rw [if_neg hrefuses]
    have hlens : fileLengths info = files.map length := by
      have hnat := congrArg (map Int.toNat) hfiles
      rwa [map_map, map_map] at hnat
    rw [length_flatten] at hfit
    rw [newRequest, hlens]
    obtain ⟨i, cut, htiles, -, hlocate⟩ := locate_tiles hfit
    dsimp only
    rw [locate_found hpos hfit, hlocate]
    have hcut : ∀ c ∈ cut, c.1 < files.length := by
      rintro ⟨j, e⟩ hj
      obtain ⟨l, hl, -⟩ := htiles.mem hj
      have hlt := (List.getElem?_eq_some_iff.mp hl).1
      rwa [length_map] at hlt
    refine Ends.bind (R := PartsOf files cut) ?_ fun parts hparts => ⟨i, cut, htiles, hparts⟩
    exact (visitParts_addPart rfl hfiles hcut .nil).mono (fun _ => .inl) fun _ h => h

/-! ## What is received -/

/-- The response, if there is one, is from the file: 206 with what was asked for, or 200 with the
whole file. -/
def FromFile (file : List UInt8) (req : HttpRequest) (answer : Answer ε) : Prop :=
  ∀ resp, answer.result = .ok resp →
    (resp.statusCode = 206 ∧ Delivers resp.body (req.asked file)) ∨
      (resp.statusCode = 200 ∧ Delivers resp.body file)

theorem recvPartResult_length {part : RequestPart} {answer : Answer ε}
    (h : (recvPartResult part answer).2 = none) :
    (recvPartResult part answer).1.length = part.e.length := by
  unfold recvPartResult at h ⊢
  split at h
  · cases h
  · split_ifs at h ⊢ with hcanceled h206 hok hstart
    · split at h
      · cases h
      · split_ifs at h ⊢ with hlen
        exact not_not.mp hlen
    · exact length_copyN (Option.map_eq_none_iff.mp h)

theorem recvPartResult_fromFile {part : RequestPart} {answer : Answer ε} {file : List UInt8}
    (hfrom : FromFile file part.req answer)
    (hasked : part.req.asked file = (file.drop part.e.start).take part.e.length)
    (h : (recvPartResult part answer).2 = none) :
    (recvPartResult part answer).1 = (file.drop part.e.start).take part.e.length := by
  unfold recvPartResult at h ⊢
  split at h
  · cases h
  · rename_i resp hresp
    specialize hfrom resp hresp
    split_ifs at h ⊢ with hcanceled h206 hok hstart
    · rcases hfrom with ⟨-, hbody⟩ | ⟨hstatus, -⟩
      · rw [copy_of_delivers hbody]
        dsimp only
        split_ifs
        · exact hasked
        · exact hasked
      · rw [h206] at hstatus
        cases hstatus
    · rcases hfrom with ⟨hstatus, -⟩ | ⟨-, hbody⟩
      · exact absurd hstatus h206
      · exact (copyN_of_delivers (copyN_of_delivers hbody _).2 _).1

theorem take_drop_flatten {start n : ℕ} {file : List UInt8} (hi : files[i]? = some file)
    (hin : start + n ≤ file.length) :
    (files.flatten.drop (offset (files.map length) i + start)).take n =
      (file.drop start).take n := by
  induction files generalizing i with
  | nil => cases hi
  | cons f files ih =>
    cases i with
    | zero =>
      obtain rfl : f = file := Option.some.inj hi
      rw [flatten_cons, offset, take_zero, sum_nil, zero_add,
        drop_append_of_le_length (by omega),
        take_append_of_le_length (by rw [length_drop]; omega)]
    | succ i =>
      rw [flatten_cons, offset, map_cons, take_succ_cons, sum_cons,
        add_assoc, ← drop_drop, drop_left]
      exact ih hi

theorem readParts_length {lens : List ℕ} (htiles : Tiles lens i p len cut)
    (hparts : PartsOf files cut parts) (h : (readRequestPartResponses answers k parts).err = none) :
    (readRequestPartResponses answers k parts).bytes.length = len := by
  induction htiles generalizing k parts with
  | done =>
    cases hparts
    rfl
  | tile hl hp hin hempty hmore hnext rest ih =>
    obtain ⟨part, parts, ⟨-, he, -⟩, hrest, rfl⟩ := forall₂_cons_left_iff.mp hparts
    rw [readRequestPartResponses] at h ⊢
    have hlength := @recvPartResult_length ε part (answers k)
    split at h
    · cases h
    · rename_i b hrecv
      rw [hrecv, he] at hlength
      rw [length_append, hlength rfl, ih hrest h]

theorem readParts_range (htiles : Tiles (files.map length) i p len cut)
    (hparts : PartsOf files cut parts)
    (hfrom : ∀ j part file, parts[j]? = some part → files[part.fileIndex]? = some file →
      FromFile file part.req (answers (k + j)))
    (h : (readRequestPartResponses answers k parts).err = none) :
    (readRequestPartResponses answers k parts).bytes = (files.flatten.drop p).take len := by
  induction htiles generalizing k parts with
  | done =>
    cases hparts
    rfl
  | @tile i p l start n len cut hl hp hin hempty hmore hnext rest ih =>
    obtain ⟨part, parts, ⟨hi, he, hasked⟩, hrest, rfl⟩ := forall₂_cons_left_iff.mp hparts
    obtain ⟨file, hfile, rfl⟩ := Option.map_eq_some_iff.mp (getElem?_map.symm.trans hl)
    rw [readRequestPartResponses] at h ⊢
    have hhere := @recvPartResult_fromFile ε part (answers k) file
      (hfrom 0 part file rfl (hi ▸ hfile)) (he ▸ hasked file hfile)
    split at h
    · cases h
    · rename_i b hrecv
      rw [hrecv, he] at hhere
      have hb : b = (file.drop start).take n := hhere rfl
      have hlater := ih hrest (fun j part file hj => by
        have hpart := hfrom (j + 1) part file hj
        rwa [← add_assoc, add_right_comm] at hpart) h
      dsimp only
      rw [hb, hlater, take_add, drop_drop, ← hp, take_drop_flatten hfile hin]

/-! ## The result of a request -/

/-- **The result** of a request for a range inside the torrent, to a server that answers with
`answers`. Without an error it has as many bytes as were asked for. If each response is from the
file it was asked of, a file without bytes answering with nothing, they are the range of the
concatenated files. -/
theorem request_returns_range (accepts : List UInt8 → Bool) (url : List UInt8)
    (pathEscaper : List (List UInt8) → List UInt8) (info : NamedInfo) (files : List (List UInt8))
    (hfiles : info.upvertedFiles.map (·.length) = files.map fun f => (f.length : ℤ)) (r : Extent)
    (hpos : 0 < r.length) (hfit : r.stop ≤ files.flatten.length) (answers : ℕ → Answer ε) :
    Ends ((Client.mk url pathEscaper [] none).Panics info)
      (fun parts =>
        let result := readRequestPartResponses answers 0 parts
        ((∀ k part file, parts[k]? = some part → files[part.fileIndex]? = some file →
            FromFile file part.req (answers k)) →
          result.err = none → result.bytes = (files.flatten.drop r.start).take r.length) ∧
        (result.err = none → result.bytes.length = r.length))
      (((Client.mk url pathEscaper [] none).setInfo info).newRequest accepts r) := by
  refine (Client.newRequest_parts hfiles hpos hfit).imp ?_
  rintro parts ⟨i, cut, htiles, hparts⟩
  refine ⟨fun hfrom => readParts_range htiles hparts ?_, readParts_length htiles hparts⟩
  intro j part file hj hfile
  rw [zero_add]
  exact hfrom j part file hj hfile

/-- Three files, the second one without bytes. -/
def threeFiles : List (List UInt8) := [[1, 2], [], [3, 4, 5]]

def threeInfo : NamedInfo := { name := [], files := [⟨2, [[97]]⟩, ⟨0, [[98]]⟩, ⟨3, [[99]]⟩] }

def threeClient : Client := .mk [47] flatten [] none

/-- The server follows the `Range` header for the first file and not for the last one. -/
def threeAnswers : ℕ → Answer Unit
  | 0 => { result := .ok ⟨206, [.data [2]]⟩ }
  | 1 => { result := .ok ⟨200, []⟩ }
  | _ => { result := .ok ⟨200, [.data [3, 4], .data [5]]⟩ }

/-- What is asked for to get three bytes from the second one on. -/
def threeParts : List RequestPart :=
  [⟨0, ⟨[47, 97], some (1, 1)⟩, ⟨1, 1⟩⟩, ⟨1, ⟨[47, 98], none⟩, ⟨0, 0⟩⟩,
    ⟨2, ⟨[47, 99], some (0, 1)⟩, ⟨0, 2⟩⟩]

theorem threeParts_fromFile : ∀ k part file, threeParts[k]? = some part →
    threeFiles[part.fileIndex]? = some file → FromFile file part.req (threeAnswers k) := by
  rintro (_ | _ | _ | k) part file ⟨⟩ ⟨⟩ resp ⟨⟩
  · exact .inl ⟨rfl, [[2]], rfl, rfl⟩
  · exact .inr ⟨rfl, [], rfl, rfl⟩
  · exact .inr ⟨rfl, [[3, 4], [5]], rfl, rfl⟩

theorem threeFiles_range :
    Reaches (fun parts =>
        let result := readRequestPartResponses threeAnswers 0 parts
        result.err = none ∧ result.bytes = [2, 3, 4])
      ((threeClient.setInfo threeInfo).newRequest (fun _ => true) ⟨1, 3⟩) := by
  have hrange := request_returns_range (fun _ => true) [47] flatten threeInfo threeFiles rfl
    ⟨1, 3⟩ (by decide) (by decide) threeAnswers
  exact ⟨rfl, hrange.1 threeParts_fromFile rfl⟩

end ReliableBT.Webseed
