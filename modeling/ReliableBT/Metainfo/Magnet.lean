import ReliableBT.Lib.Encodings
import ReliableBT.Lib.Url

/-!
# Magnet links (`metainfo/magnet.go`)

A magnet link is a URL whose query has the infohash of a torrent (`xt`), a name for it (`dn`), its
trackers (`tr`) and other parameters. `ParseMagnetUri` takes the first `xt` and the first `dn`, all
of `tr`, and keeps what is left as the remaining parameters. `String` puts them together again: `xt`
comes first, and what was taken away is added behind the remaining values of its key.

For `tr` there are no remaining values, and `xt` is in front of them. But the name goes behind the
remaining names, where `ParseMagnetUri` does not look for it.

* `parse_string_eq`: what the text of a link is read as.
* `magnet_round_trip`: everything but the names is read back; the names are if and only if all of
  them are the same, and not empty, or there is at most one.
-/

open List

namespace ReliableBT.Metainfo

open Url Multimap Encodings

/-- `metainfo.Hash` -/
abbrev Hash := { h : List UInt8 // h.length = 20 }

/-- `Magnet`. The map of the remaining parameters is nil if there are none, and empty here. -/
@[ext] structure Magnet where
  infoHash : Hash
  trackers : List (List UInt8)
  displayName : List UInt8
  params : Values
  deriving DecidableEq

/-- `magnet` -/
def magnetScheme : List UInt8 := [109, 97, 103, 110, 101, 116]

/-- `xt` -/
def xtKey : List UInt8 := [120, 116]

/-- `dn` -/
def dnKey : List UInt8 := [100, 110]

/-- `tr` -/
def trKey : List UInt8 := [116, 114]

/-- `xtPrefix`: `urn:btih:` -/
def urnBtih : List UInt8 := [117, 114, 110, 58, 98, 116, 105, 104, 58]

/-- `Magnet.String` -/
def Magnet.string (m : Magnet) : List UInt8 :=
  let vs := m.trackers.foldl (fun vs tr => add vs trKey tr) m.params
  let vs := if m.displayName ≠ [] then add vs dnKey m.displayName else vs
  let rawQuery := xtKey ++ 61 :: (urnBtih ++ hexEncode m.infoHash)
  URL.string ⟨magnetScheme, if vs ≠ ∅ then rawQuery ++ 38 :: encode vs else rawQuery⟩

/-- The errors of `parseInfohash`, and its panic. -/
inductive InfohashError
  | badPrefix
  | unhandledEncoding (length : ℕ)
  | decoding
  | panic (n : ℕ)
  deriving DecidableEq, Repr

/-- `parseInfohash` -/
def parseInfohash (xt : List UInt8) : Except InfohashError Hash :=
  if ¬ urnBtih.isPrefixOf xt then .error .badPrefix
  else
    let encoded := xt.drop urnBtih.length
    if encoded.length ≠ 40 ∧ encoded.length ≠ 32 then .error (.unhandledEncoding encoded.length)
    else
      match if encoded.length = 40 then hexDecode encoded else base32Decode encoded with
      | none => .error .decoding
      | some ih => if h : ih.length = 20 then .ok ⟨ih, h⟩ else .error (.panic ih.length)

/-- The errors of `ParseMagnetUri`. A panic is not an error, and is passed on as it is. -/
inductive MagnetError
  | parsingUri
  | unexpectedScheme (scheme : List UInt8)
  | parsingInfohash (xt : List UInt8) (e : InfohashError)
  | panic (n : ℕ)
  deriving DecidableEq, Repr

/-- The error that `ParseMagnetUri` returns for an error of `parseInfohash`. -/
def infohashError (xt : List UInt8) : InfohashError → MagnetError
  | .panic n => .panic n
  | e => .parsingInfohash xt e

/-- `Values.Get` -/
def get (vs : Values) (key : List UInt8) : List UInt8 := (valuesAt vs key).headD []

/-- `dropFirst` -/
def dropFirst (vs : Values) (key : List UInt8) : Values :=
  match valuesAt vs key with
  | [] | [_] => vs.erase key
  | _ :: sl => vs.insert key sl

/-- The link of a query with an infohash. -/
def ofQuery (infoHash : Hash) (q : Values) : Magnet :=
  let q := dropFirst q xtKey
  let displayName := get q dnKey
  let q := dropFirst q dnKey
  let trackers := valuesAt q trKey
  ⟨infoHash, trackers, displayName, q.erase trKey⟩

/-- `ParseMagnetUri` -/
def parseMagnetUri (authority : List UInt8 → Bool) (uri : List UInt8) :
    Except MagnetError Magnet :=
  match Url.parse authority uri with
  | none => .error .parsingUri
  | some u =>
    if u.scheme ≠ magnetScheme then .error (.unexpectedScheme u.scheme)
    else
      let q := parseQuery u.rawQuery
      match parseInfohash (get q xtKey) with
      | .error e => .error (infohashError (get q xtKey) e)
      | .ok infoHash => .ok (ofQuery infoHash q)

/-! ## The parameters of a link -/

theorem valuesAt_dropFirst (vs : Values) (key k : List UInt8) :
    valuesAt (dropFirst vs key) k = if key = k then (valuesAt vs key).tail else valuesAt vs k := by
  rw [dropFirst]
  split
  · next hnil => rw [valuesAt_erase, hnil, tail_nil]
  · next hone => rw [valuesAt_erase, hone, tail_cons]
  · next hmore => rw [valuesAt_insert, hmore, tail_cons]

theorem full_dropFirst {vs : Values} (h : Full vs) (key : List UInt8) :
    Full (dropFirst vs key) := by
  rw [dropFirst]
  split
  · exact h.erase key
  · exact h.erase key
  · next hne _ => exact h.insert key hne

theorem ofQuery_displayName (infoHash : Hash) (q : Values) :
    (ofQuery infoHash q).displayName = (valuesAt q dnKey).headD [] := by
  rw [ofQuery]
  dsimp only
  rw [get, valuesAt_dropFirst, if_neg (by decide)]

theorem ofQuery_trackers (infoHash : Hash) (q : Values) :
    (ofQuery infoHash q).trackers = valuesAt q trKey := by
  rw [ofQuery]
  dsimp only
  rw [valuesAt_dropFirst, if_neg (by decide), valuesAt_dropFirst, if_neg (by decide)]

theorem valuesAt_ofQuery (infoHash : Hash) (q : Values) (k : List UInt8) :
    valuesAt (ofQuery infoHash q).params k =
      if k = trKey then []
      else if k = xtKey ∨ k = dnKey then (valuesAt q k).tail
      else valuesAt q k := by
  rw [ofQuery]
  dsimp only
  rw [valuesAt_erase, valuesAt_dropFirst, valuesAt_dropFirst, valuesAt_dropFirst]
  by_cases htr : k = trKey
  · rw [if_pos htr.symm, if_pos htr]
  rw [if_neg (Ne.symm htr), if_neg htr]
  by_cases hdn : k = dnKey
  · subst hdn
    rfl
  rw [if_neg (Ne.symm hdn)]
  by_cases hxt : k = xtKey
  · subst hxt
    rfl
  rw [if_neg (Ne.symm hxt), if_neg (not_or.mpr ⟨hxt, hdn⟩)]

/-- The remaining parameters: no key without values, and no trackers. -/
structure Magnet.Parsed (m : Magnet) : Prop where
  full : Full m.params
  trackers : valuesAt m.params trKey = []

theorem parsed_ofQuery {q : Values} (h : Full q) (infoHash : Hash) :
    (ofQuery infoHash q).Parsed where
  full := (full_dropFirst (full_dropFirst h xtKey) dnKey).erase trKey
  trackers := by rw [valuesAt_ofQuery, if_pos rfl]

theorem full_parseQuery (query : List UInt8) : Full (parseQuery query) := full_empty.addAll _

variable {m : Magnet} {c : UInt8}

theorem parsed_of_parseMagnetUri {authority : List UInt8 → Bool} {uri : List UInt8}
    (h : parseMagnetUri authority uri = .ok m) : m.Parsed := by
  rw [parseMagnetUri] at h
  split at h
  · cases h
  · split_ifs at h
    dsimp only at h
    split at h
    · cases h
    · cases h
      exact parsed_ofQuery (full_parseQuery _) _

/-! ## The text of a link -/

/-- The values for the name. -/
def nameValues (name : List UInt8) : List (List UInt8) := if name ≠ [] then [name] else []

/-- The parameters of the text, but for the infohash. -/
def Magnet.values (m : Magnet) : Values :=
  addAll m.params (m.trackers.map (trKey, ·) ++ (nameValues m.displayName).map (dnKey, ·))

/-- The value of `xt`. -/
def Magnet.xt (m : Magnet) : List UInt8 := urnBtih ++ hexEncode m.infoHash

/-- The first pair of the text. -/
def Magnet.xtPair (m : Magnet) : List UInt8 := xtKey ++ 61 :: m.xt

/-- The query of the text. -/
def Magnet.query (m : Magnet) : List UInt8 :=
  m.xtPair ++ if m.values ≠ ∅ then 38 :: encode m.values else []

theorem Magnet.string_eq (m : Magnet) : m.string = URL.string ⟨magnetScheme, m.query⟩ := by
  have hvalues : (if m.displayName ≠ []
      then add (m.trackers.foldl (fun vs tr => add vs trKey tr) m.params) dnKey m.displayName
      else m.trackers.foldl (fun vs tr => add vs trKey tr) m.params) = m.values := by
    rw [values, nameValues, addAll, foldl_append, foldl_map, foldl_map]
    split
    · rfl
    · rfl
  unfold string
  dsimp only
  rw [hvalues, query, xtPair, xt]
  congr 2
  split
  · rfl
  · rw [append_nil]

theorem Magnet.valuesAt_values (m : Magnet) (k : List UInt8) :
    valuesAt m.values k = valuesAt m.params k ++ ((if trKey = k then m.trackers else []) ++
      if dnKey = k then nameValues m.displayName else []) := by
  rw [values, valuesAt_addAll, filter_append, map_append, filter_map_key, filter_map_key]

theorem shouldEscape_of_isHex (h : Ip.isHex c) : shouldEscape c = false := by
  simp only [Ip.isHex, Bool.or_eq_true, decide_eq_true_eq] at h
  have hsafe : isLetter c ∨ Decimal.isDigit c := by
    rcases h with (hdigit | hsmall) | hlarge
    · exact .inr hdigit
    · exact .inl (decide_eq_true (.inl ⟨hsmall.1, by omega⟩))
    · exact .inl (decide_eq_true (.inr ⟨hlarge.1, by omega⟩))
  rcases hsafe with h | h
  · simp [shouldEscape, h]
  · simp [shouldEscape, h]

theorem Magnet.mem_xtPair (h : c ∈ m.xtPair) : shouldEscape c = false ∨ c = 58 ∨ c = 61 := by
  have hfixed : (xtKey ++ 61 :: urnBtih).all fun c => !shouldEscape c || c ∈ [58, 61] := by decide
  rw [xtPair, xt, ← cons_append, ← append_assoc] at h
  rcases mem_append.mp h with hfix | hhex
  · simpa using all_eq_true.mp hfixed c hfix
  · exact .inl (shouldEscape_of_isHex (isHex_of_mem_hexEncode hhex))

theorem Magnet.not_mem_xtPair (h : shouldEscape c) (hne : c ≠ 58 ∧ c ≠ 61) (m : Magnet) :
    c ∉ m.xtPair := by
  intro hc
  rcases mem_xtPair hc with hsafe | heq
  · rw [h] at hsafe
    cases hsafe
  · exact not_or.mpr hne heq

theorem Magnet.parsePair_xtPair (m : Magnet) : parsePair m.xtPair = some (xtKey, m.xt) := by
  have hxt : queryUnescape m.xt = some m.xt := by
    refine queryUnescape_eq_self fun c hc => ⟨?_, ?_⟩
    all_goals
      rintro rfl
      exact not_mem_xtPair rfl (by decide) m (mem_append_right _ (mem_cons_of_mem _ hc))
  rw [parsePair, if_neg (not_mem_xtPair rfl (by decide) m), if_neg (by simp [xtPair]), xtPair,
    cut_append (by decide)]
  dsimp only
  rw [hxt]
  rfl

theorem Magnet.queryPairs_query (m : Magnet) :
    queryPairs m.query = (xtKey, m.xt) :: pairs m.values := by
  have hxt : queryPairs m.xtPair = [(xtKey, m.xt)] := by
    rw [queryPairs_of_not_mem (not_mem_xtPair rfl (by decide) m), parsePair_xtPair]
    rfl
  rw [query]
  split
  · rw [queryPairs_append, hxt, queryPairs_encode]
    rfl
  · next hempty =>
    rw [append_nil, hxt, not_not.mp hempty]
    rfl

theorem Magnet.mem_query (h : c ∈ m.query) : isControl c = false ∧ c ≠ 35 := by
  have hplain : isPlain c → isControl c = false ∧ c ≠ 35 := by
    intro hc
    refine ⟨isControl_of_isPlain hc, ?_⟩
    rintro rfl
    cases hc
  have hpair : c ∈ m.xtPair → isControl c = false ∧ c ≠ 35 := by
    intro hc
    rcases mem_xtPair hc with hsafe | rfl | rfl
    · exact hplain (by simp [isPlain, hsafe])
    · decide
    · decide
  rw [query] at h
  rcases mem_append.mp h with hxt | hmore
  · exact hpair hxt
  · split at hmore
    · rcases mem_cons.mp hmore with rfl | hmem
      · decide
      · rcases mem_encode hmem with hc | rfl | rfl
        · exact hplain hc
        · decide
        · decide
    · cases hmore

theorem parseInfohash_hex (infoHash : Hash) :
    parseInfohash (urnBtih ++ hexEncode infoHash) = .ok infoHash := by
  have hurn : urnBtih.isPrefixOf (urnBtih ++ hexEncode infoHash) = true := by simp
  have hlen : (hexEncode infoHash).length = 40 := by rw [length_hexEncode, infoHash.2]
  rw [parseInfohash, hurn, if_neg (not_not.mpr rfl), drop_left]
  dsimp only
  rw [hlen, if_neg (by decide), if_pos rfl, hexDecode_hexEncode]
  exact dif_pos infoHash.2

-- a base32 text of 32 digits that are filled up with `=` has fewer than 20 bytes
example : parseInfohash (urnBtih ++ replicate 26 65 ++ replicate 6 61) =
    .error (.panic 16) := by decide

/-- The parameters that the text is read to have. -/
def Magnet.readBack (m : Magnet) : Values := addAll ∅ ((xtKey, m.xt) :: pairs m.values)

theorem Magnet.full_readBack (m : Magnet) : Full m.readBack := full_empty.addAll _

theorem Magnet.valuesAt_readBack (m : Magnet) (k : List UInt8) :
    valuesAt m.readBack k = (if xtKey = k then [m.xt] else []) ++ valuesAt m.values k := by
  have hxt := filter_map_key xtKey k [m.xt]
  rw [readBack, valuesAt_addAll, ← singleton_append, filter_append, map_append, valuesAt_pairs]
  exact congrArg (· ++ valuesAt m.values k) hxt

/-- **What the text of a link is read as.** -/
theorem parse_string_eq (authority : List UInt8 → Bool) (m : Magnet) :
    parseMagnetUri authority m.string = .ok (ofQuery m.infoHash m.readBack) := by
  have hsmall : magnetScheme.all fun c => decide (97 ≤ c.toNat ∧ c.toNat ≤ 122) := by decide
  have hscheme : IsScheme magnetScheme :=
    ⟨by decide, fun c hc => of_decide_eq_true (all_eq_true.mp hsmall c hc)⟩
  have hxt : get m.readBack xtKey = m.xt := by
    rw [get, m.valuesAt_readBack, if_pos rfl]
    rfl
  rw [m.string_eq, parseMagnetUri, Url.parse_string authority hscheme fun c hc => m.mem_query hc]
  dsimp only
  rw [if_neg (not_not.mpr rfl), parseQuery, m.queryPairs_query, ← Magnet.readBack, hxt, Magnet.xt,
    parseInfohash_hex]

/-! ## Round trips -/

theorem append_singleton_eq_cons_iff {α : Type} {d : α} {ns : List α} :
    ns ++ [d] = d :: ns ↔ ∀ n ∈ ns, n = d := by
  induction ns with
  | nil => simp
  | cons n ns ih =>
    rw [cons_append, cons.injEq, forall_mem_cons]
    refine and_congr_right ?_
    rintro rfl
    exact ih

theorem names_rotate_iff {name : List UInt8} {names : List (List UInt8)} :
    ((names ++ nameValues name).headD [] = name ∧ (names ++ nameValues name).tail = names) ↔
      ∀ n ∈ names, name ≠ [] ∧ n = name := by
  rw [nameValues]
  split
  · next hname =>
    have hrotate : ((names ++ [name]).headD [] = name ∧ (names ++ [name]).tail = names) ↔
        names ++ [name] = name :: names := by
      cases names with
      | nil => simp
      | cons n names => simp
    rw [hrotate, append_singleton_eq_cons_iff]
    exact forall₂_congr fun n _ => (and_iff_right hname).symm
  · next hname =>
    rw [append_nil]
    cases names with
    | nil => simpa using (not_not.mp hname).symm
    | cons n names =>
      refine iff_of_false (fun h => ?_) fun h => hname (h n mem_cons_self).1
      exact absurd (congrArg length h.2) (Nat.ne_of_lt (Nat.lt_succ_self _))

theorem Magnet.Parsed.valuesAt_ofQuery (h : m.Parsed) {k : List UInt8} (hk : k ≠ dnKey) :
    valuesAt (ofQuery m.infoHash m.readBack).params k = valuesAt m.params k := by
  rw [Metainfo.valuesAt_ofQuery]
  split
  · next htr => rw [htr, h.trackers]
  · next htr =>
    have hvalues : valuesAt m.values k = valuesAt m.params k := by
      rw [m.valuesAt_values, if_neg (Ne.symm htr), if_neg (Ne.symm hk)]
      exact append_nil _
    rw [m.valuesAt_readBack, hvalues]
    by_cases hxt : k = xtKey
    · rw [if_pos (.inl hxt), if_pos hxt.symm]
      rfl
    · rw [if_neg (not_or.mpr ⟨hxt, hk⟩), if_neg (Ne.symm hxt)]
      rfl

theorem Magnet.valuesAt_readBack_dn (m : Magnet) :
    valuesAt m.readBack dnKey = valuesAt m.params dnKey ++ nameValues m.displayName := by
  rw [m.valuesAt_readBack, m.valuesAt_values]
  rfl

/-- **Round trips.** The text of a link that was accepted is accepted, with the same infohash,
trackers and parameters, the names apart. The links are the same if and only if all the names are
the same and not empty, or there is at most one. -/
theorem magnet_round_trip {authority : List UInt8 → Bool} {uri : List UInt8} {m : Magnet}
    (h : parseMagnetUri authority uri = .ok m) :
    ∃ m', parseMagnetUri authority m.string = .ok m' ∧ m'.infoHash = m.infoHash ∧
      m'.trackers = m.trackers ∧ (∀ k ≠ dnKey, valuesAt m'.params k = valuesAt m.params k) ∧
      (m' = m ↔ ∀ n ∈ valuesAt m.params dnKey, m.displayName ≠ [] ∧ n = m.displayName) := by
  have hparsed := parsed_of_parseMagnetUri h
  have htrackers : (ofQuery m.infoHash m.readBack).trackers = m.trackers := by
    rw [ofQuery_trackers, m.valuesAt_readBack, m.valuesAt_values, hparsed.trackers]
    exact append_nil _
  have hname : (ofQuery m.infoHash m.readBack).displayName =
      (valuesAt m.params dnKey ++ nameValues m.displayName).headD [] := by
    rw [ofQuery_displayName, m.valuesAt_readBack_dn]
  have hnames : valuesAt (ofQuery m.infoHash m.readBack).params dnKey =
      (valuesAt m.params dnKey ++ nameValues m.displayName).tail := by
    rw [valuesAt_ofQuery, if_neg (by decide), if_pos (.inr rfl), m.valuesAt_readBack_dn]
  refine ⟨ofQuery m.infoHash m.readBack, parse_string_eq authority m, rfl, htrackers,
    fun k => hparsed.valuesAt_ofQuery, ?_⟩
  rw [← names_rotate_iff, ← hname, ← hnames]
  constructor
  · intro heq
    rw [heq]
    exact ⟨rfl, rfl⟩
  · rintro ⟨hsame, hrest⟩
    have hfull := (parsed_ofQuery m.full_readBack m.infoHash).full
    have hparams : (ofQuery m.infoHash m.readBack).params = m.params := by
      refine ext_valuesAt hfull hparsed.full fun k => ?_
      by_cases hk : k = dnKey
      · rw [hk, hrest]
      · exact hparsed.valuesAt_ofQuery hk
    exact Magnet.ext rfl htrackers hsame hparams

/-- `magnet:?xt=urn:btih:` and forty zeros, with further parameters -/
def zeroLink (more : List UInt8) : List UInt8 :=
  magnetScheme ++ [58, 63] ++ xtKey ++ 61 :: urnBtih ++ replicate 40 48 ++ more

/-- The link with two names. -/
def named (name other : List UInt8) : Magnet :=
  ⟨⟨replicate 20 0, rfl⟩, [], name, (∅ : Values).insert dnKey [other]⟩

/-- The same name twice: `&dn=a&dn=a` -/
theorem sameName_reads_back :
    parseMagnetUri (fun _ => true) (zeroLink [38, 100, 110, 61, 97, 38, 100, 110, 61, 97]) =
        .ok (named [97] [97]) ∧
      parseMagnetUri (fun _ => true) (named [97] [97]).string = .ok (named [97] [97]) := by
  have hread : parseMagnetUri (fun _ => true)
      (zeroLink [38, 100, 110, 61, 97, 38, 100, 110, 61, 97]) = .ok (named [97] [97]) := by decide
  obtain ⟨m', hm', -, -, -, hiff⟩ := magnet_round_trip hread
  rw [hm', hiff.mpr (by decide)]
  exact ⟨hread, rfl⟩

/-- Two names, `&dn=a&dn=b`, change places. -/
theorem two_names_swap :
    parseMagnetUri (fun _ => true) (zeroLink [38, 100, 110, 61, 97, 38, 100, 110, 61, 98]) =
        .ok (named [97] [98]) ∧
      parseMagnetUri (fun _ => true) (named [97] [98]).string = .ok (named [98] [97]) ∧
      named [98] [97] ≠ named [97] [98] := by
  decide

end ReliableBT.Metainfo
