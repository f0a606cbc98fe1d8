import ReliableBT.Lib.IpText
import ReliableBT.Lib.Multimap

/-!
# URLs and query strings

What `net/url` does with a URL that is read for its scheme and its query. A query string is a list
of pairs `key=value` with `&` between them. The bytes of a key or a value that could be taken for
something else are escaped, as `%` and two hexadecimal digits, and a space is a `+`.

`parseQuery` leaves out the pairs it cannot read. `encode` sorts the pairs by their keys.

* `queryUnescape_queryEscape`: an escaped text is read back.
* `queryPairs_encode`: the pairs of an encoded map are read back.
* `parse_string`: a URL that is only a scheme and a query is read back.
-/

open List UInt8

namespace ReliableBT.Url

open Ip (isHex hexVal)
open Multimap

/-! ## Escaping -/

def isLetter (c : UInt8) : Bool :=
  decide (97 ≤ c.toNat ∧ c.toNat ≤ 122 ∨ 65 ≤ c.toNat ∧ c.toNat ≤ 90)

/-- Letters, digits and `-`, `.`, `_`, `~` are not escaped (`shouldEscape`, for a query). -/
def shouldEscape (c : UInt8) : Bool :=
  !(isLetter c || Decimal.isDigit c || c ∈ [45, 46, 95, 126])

/-- A digit of `0123456789ABCDEF`. -/
def upperhex (k : ℕ) : UInt8 := .ofNat (if k < 10 then 48 + k else 55 + k)

def escapeByte (c : UInt8) : List UInt8 :=
  if c = 32 then [43]
  else if shouldEscape c then [37, upperhex (c.toNat / 16), upperhex (c.toNat % 16)]
  else [c]

/-- `QueryEscape` -/
def queryEscape (s : List UInt8) : List UInt8 := s.flatMap escapeByte

/-- `QueryUnescape` -/
def queryUnescape : List UInt8 → Option (List UInt8)
  | [] => some []
  | c :: s =>
    if c = 37 then
      match s with
      | a :: b :: s =>
        if isHex a && isHex b then
          (queryUnescape s).map (ofNat (16 * hexVal a + hexVal b) :: ·)
        else none
      | _ => none
    else (queryUnescape s).map ((if c = 43 then 32 else c) :: ·)

theorem queryUnescape_percent (a b : UInt8) (s : List UInt8) :
    queryUnescape (37 :: a :: b :: s) =
      if isHex a && isHex b then
        (queryUnescape s).map (ofNat (16 * hexVal a + hexVal b) :: ·)
      else none := by
  rw [queryUnescape, if_pos rfl]

variable {c : UInt8} {s : List UInt8} {sep : UInt8} {a : List UInt8}

theorem queryUnescape_cons (h : c ≠ 37) (s : List UInt8) :
    queryUnescape (c :: s) = (queryUnescape s).map ((if c = 43 then 32 else c) :: ·) := by
  rw [queryUnescape.eq_def]
  exact if_neg h

theorem upperhex_spec {k : ℕ} (h : k < 16) : isHex (upperhex k) ∧ hexVal (upperhex k) = k := by
  revert k
  decide

theorem queryUnescape_escapeByte (c : UInt8) (s : List UInt8) :
    queryUnescape (escapeByte c ++ s) = (queryUnescape s).map (c :: ·) := by
  rw [escapeByte]
  split
  · next hspace =>
    rw [hspace, singleton_append, queryUnescape_cons (by decide)]
    rfl
  · split
    · have hlt := c.toNat_lt
      obtain ⟨hhi, hhival⟩ := @upperhex_spec (c.toNat / 16) (by omega)
      obtain ⟨hlo, hloval⟩ := @upperhex_spec (c.toNat % 16) (by omega)
      have hc : UInt8.ofNat (16 * (c.toNat / 16) + c.toNat % 16) = c := by
        rw [Nat.div_add_mod, UInt8.ofNat_toNat]
      rw [cons_append, cons_append, cons_append, nil_append,
        queryUnescape_percent, hhi, hlo, hhival, hloval, hc]
      rfl
    · next hplain =>
      have hpercent : c ≠ 37 := by
        rintro rfl
        exact hplain rfl
      have hplus : c ≠ 43 := by
        rintro rfl
        exact hplain rfl
      rw [singleton_append, queryUnescape_cons hpercent, if_neg hplus]

/-- **An escaped text** is read back. -/
theorem queryUnescape_queryEscape (s : List UInt8) : queryUnescape (queryEscape s) = some s := by
  induction s with
  | nil => rfl
  | cons c s ih => rw [queryEscape, flatMap_cons, queryUnescape_escapeByte, ← queryEscape, ih,
      Option.map_some]

theorem queryUnescape_eq_self (h : ∀ c ∈ s, c ≠ 37 ∧ c ≠ 43) : queryUnescape s = some s := by
  induction s with
  | nil => rfl
  | cons c s ih =>
    obtain ⟨hpercent, hplus⟩ := h c mem_cons_self
    rw [queryUnescape_cons hpercent, if_neg hplus, ih fun b hb => h b (mem_cons_of_mem c hb),
      Option.map_some]

/-- The bytes of an escaped text. -/
def isPlain (c : UInt8) : Bool := !shouldEscape c || c ∈ [37, 43]

theorem isPlain_upperhex {k : ℕ} (h : k < 16) : isPlain (upperhex k) := by
  revert k
  decide

theorem isPlain_of_mem_escape (h : c ∈ queryEscape s) : isPlain c := by
  obtain ⟨b, -, hc⟩ := mem_flatMap.mp h
  rw [escapeByte] at hc
  split at hc
  · rw [mem_singleton.mp hc]
    rfl
  · split at hc
    · have hlt := b.toNat_lt
      simp only [mem_cons, not_mem_nil, or_false] at hc
      rcases hc with rfl | rfl | rfl
      · rfl
      · exact isPlain_upperhex (by omega)
      · exact isPlain_upperhex (by omega)
    · next hplain =>
      rw [mem_singleton.mp hc]
      simp [isPlain, hplain]

theorem not_mem_queryEscape (h : isPlain c = false) (s : List UInt8) : c ∉ queryEscape s := by
  intro hc
  rw [isPlain_of_mem_escape hc] at h
  cases h

/-! ## Query strings -/

/-- `strings.Cut`, for a single byte: what is in front of it, and what is behind it -/
def cut (sep : UInt8) (s : List UInt8) : List UInt8 × List UInt8 :=
  (s.takeWhile (· ≠ sep), (s.dropWhile (· ≠ sep)).drop 1)

theorem cut_append (h : sep ∉ a) (b : List UInt8) : cut sep (a ++ sep :: b) = (a, b) := by
  have hne : ∀ c ∈ a, decide (c ≠ sep) = true :=
    fun c hc => decide_eq_true fun heq => h (heq ▸ hc)
  rw [cut, takeWhile_append_of_pos hne, dropWhile_append_of_pos hne]
  simp

theorem cut_of_not_mem (h : sep ∉ a) : cut sep a = (a, []) := by
  have hne : ∀ c ∈ a, decide (c ≠ sep) = true :=
    fun c hc => decide_eq_true fun heq => h (heq ▸ hc)
  rw [cut, takeWhile_eq_self_iff.mpr hne, dropWhile_eq_nil_iff.mpr hne]
  rfl

/-- `url.Values` -/
abbrev Values := Multimap (List UInt8) (List UInt8)

/-- A pair of a query string. One with a semicolon, without a byte, or with a bad escape is left
out. -/
def parsePair (pair : List UInt8) : Option (List UInt8 × List UInt8) :=
  if 59 ∈ pair then none
  else if pair = [] then none
  else
    let (key, value) := cut 61 pair
    match queryUnescape key, queryUnescape value with
    | some key, some value => some (key, value)
    | _, _ => none

/-- The pairs that `ParseQuery` reads, going from one `&` to the next. -/
def queryPairs (query : List UInt8) : List (List UInt8 × List UInt8) :=
  (query.splitOn 38).filterMap parsePair

/-- `ParseQuery`, without its error -/
def parseQuery (query : List UInt8) : Values := addAll ∅ (queryPairs query)

def encodePair (p : List UInt8 × List UInt8) : List UInt8 :=
  queryEscape p.1 ++ 61 :: queryEscape p.2

/-- `Values.Encode` -/
def encode (v : Values) : List UInt8 := [38].intercalate ((pairs v).map encodePair)

theorem mem_encodePair {p : List UInt8 × List UInt8} (h : c ∈ encodePair p) :
    isPlain c ∨ c = 61 := by
  rcases mem_append.mp h with hkey | hvalue
  · exact .inl (isPlain_of_mem_escape hkey)
  · rcases mem_cons.mp hvalue with heq | hvalue
    · exact .inr heq
    · exact .inl (isPlain_of_mem_escape hvalue)

theorem not_mem_encodePair (h : isPlain c = false) (hne : c ≠ 61) (p : List UInt8 × List UInt8) :
    c ∉ encodePair p := by
  intro hc
  rcases mem_encodePair hc with hplain | heq
  · rw [hplain] at h
    cases h
  · exact hne heq

theorem parsePair_encodePair (p : List UInt8 × List UInt8) : parsePair (encodePair p) = some p := by
  rw [parsePair, if_neg (not_mem_encodePair rfl (by decide) p), if_neg (by simp [encodePair]),
    encodePair, cut_append (not_mem_queryEscape rfl p.1)]
  dsimp only
  rw [queryUnescape_queryEscape, queryUnescape_queryEscape]

theorem queryPairs_append (a b : List UInt8) :
    queryPairs (a ++ 38 :: b) = queryPairs a ++ queryPairs b := by
  rw [queryPairs, splitOn_append_cons_self, filterMap_append]
  rfl

theorem queryPairs_of_not_mem (h : 38 ∉ a) : queryPairs a = (parsePair a).toList := by
  rw [queryPairs, splitOn_eq_singleton h]
  rfl

/-- **The values** of a map are read back in order. -/
theorem queryPairs_encode (v : Values) : queryPairs (encode v) = pairs v := by
  rw [encode]
  generalize pairs v = ps
  induction ps with
  | nil => rfl
  | cons p ps ih =>
    have hhere : queryPairs (encodePair p) = [p] := by
      rw [queryPairs_of_not_mem (not_mem_encodePair rfl (by decide) p), parsePair_encodePair]
      rfl
    cases ps with
    | nil =>
      rw [map_singleton, intercalate_singleton]
      exact hhere
    | cons p' ps =>
      rw [map_cons, intercalate_cons_of_ne_nil (by simp), append_assoc,
        singleton_append, queryPairs_append, hhere, ih]
      rfl

theorem mem_encode {v : Values} (h : c ∈ encode v) : isPlain c ∨ c = 61 ∨ c = 38 := by
  rw [encode] at h
  generalize pairs v = ps at h
  induction ps with
  | nil => cases h
  | cons p ps ih =>
    cases ps with
    | nil =>
      rw [map_singleton, intercalate_singleton] at h
      exact (mem_encodePair h).imp_right .inl
    | cons p' ps =>
      rw [map_cons, intercalate_cons_of_ne_nil (by simp), append_assoc,
        singleton_append] at h
      rcases mem_append.mp h with hhere | hrest
      · exact (mem_encodePair hhere).imp_right .inl
      · rcases mem_cons.mp hrest with heq | hrest
        · exact .inr (.inr heq)
        · exact ih hrest

/-! ## URLs -/

/-- `url.URL`, what is read of it -/
structure URL where
  scheme : List UInt8
  rawQuery : List UInt8
  deriving DecidableEq, Repr

/-- The loop of `getScheme`, behind the bytes `scheme` -/
def getSchemeFrom (rawURL : List UInt8) : List UInt8 → List UInt8 → Option (List UInt8 × List UInt8)
  | _, [] => some ([], rawURL)
  | scheme, c :: s =>
    if isLetter c then getSchemeFrom rawURL (scheme ++ [c]) s
    else if Decimal.isDigit c || c ∈ [43, 45, 46] then
      if scheme = [] then some ([], rawURL) else getSchemeFrom rawURL (scheme ++ [c]) s
    else if c = 58 then
      if scheme = [] then none else some (scheme, s)
    else some ([], rawURL)

/-- `getScheme`: the scheme, and what is behind it -/
def getScheme (rawURL : List UInt8) : Option (List UInt8 × List UInt8) :=
  getSchemeFrom rawURL [] rawURL

/-- `strings.ToLower`, for the bytes of a scheme -/
def toLower (c : UInt8) : UInt8 :=
  if 65 ≤ c.toNat ∧ c.toNat ≤ 90 then .ofNat (c.toNat + 32) else c

def isControl (c : UInt8) : Bool := decide (c.toNat < 32 ∨ c.toNat = 127)

/-- Whether the host and the path behind the scheme are accepted. `authority` says which hosts
`parseAuthority` accepts. -/
def restOk (authority : List UInt8 → Bool) (scheme rest : List UInt8) : Bool :=
  if rest.head? ≠ some 47 ∧ scheme ≠ [] then true
  else if rest.head? ≠ some 47 ∧ 58 ∈ (cut 47 rest).1 then false
  else if [47, 47].isPrefixOf rest && (scheme ≠ [] || !([47, 47, 47].isPrefixOf rest)) then
    let host := rest.drop 2
    authority (host.takeWhile (· ≠ 47)) && (queryUnescape (host.dropWhile (· ≠ 47))).isSome
  else (queryUnescape rest).isSome

/-- `url.Parse`, of what is in front of the fragment -/
def parseUnfragmented (authority : List UInt8 → Bool) (rawURL : List UInt8) : Option URL :=
  if rawURL.any isControl then none
  else if rawURL = [42] then some ⟨[], []⟩
  else
    match getScheme rawURL with
    | none => none
    | some (scheme, rest) =>
      let scheme := scheme.map toLower
      let (rest, rawQuery) := cut 63 rest
      if restOk authority scheme rest then some ⟨scheme, rawQuery⟩ else none

/-- `url.Parse` -/
def parse (authority : List UInt8 → Bool) (rawURL : List UInt8) : Option URL :=
  let (u, frag) := cut 35 rawURL
  match parseUnfragmented authority u with
  | none => none
  | some url => if (queryUnescape frag).isSome then some url else none

/-- `URL.String`, of a URL with a scheme and a query only -/
def URL.string (u : URL) : List UInt8 :=
  u.scheme ++ 58 :: if u.rawQuery ≠ [] then 63 :: u.rawQuery else []

theorem isControl_of_not_shouldEscape (h : shouldEscape c = false) : isControl c = false := by
  rw [isControl, decide_eq_false_iff_not]
  intro hcontrol
  simp only [shouldEscape, isLetter, Decimal.isDigit, Bool.not_eq_false', Bool.or_eq_true,
    decide_eq_true_eq, mem_cons, not_mem_nil, or_false] at h
  rcases h with (h | h) | rfl | rfl | rfl | rfl
  · omega
  · omega
  all_goals exact absurd hcontrol (by decide)

theorem isControl_of_isPlain (h : isPlain c) : isControl c = false := by
  rcases Bool.or_eq_true _ _ ▸ h with hplain | hmem
  · exact isControl_of_not_shouldEscape (by simpa using hplain)
  · simp only [mem_cons, not_mem_nil, or_false, decide_eq_true_eq] at hmem
    rcases hmem with rfl | rfl
    · rfl
    · rfl

/-- Small letters. -/
def IsScheme (s : List UInt8) : Prop := s ≠ [] ∧ ∀ c ∈ s, 97 ≤ c.toNat ∧ c.toNat ≤ 122

theorem IsScheme.isLetter {s : List UInt8} (hs : IsScheme s) : ∀ c ∈ s, isLetter c := by
  intro c hc
  exact decide_eq_true (.inl (hs.2 c hc))

theorem IsScheme.map_toLower (hs : IsScheme s) : s.map toLower = s := by
  refine (map_congr_left fun c hc => ?_).trans (map_id s)
  have hsmall := hs.2 c hc
  exact if_neg (by omega)

theorem getSchemeFrom_letters {rawURL s : List UInt8} (hs : ∀ c ∈ s, isLetter c)
    {scheme : List UInt8} (rest : List UInt8) (hne : scheme ++ s ≠ []) :
    getSchemeFrom rawURL scheme (s ++ 58 :: rest) = some (scheme ++ s, rest) := by
  induction s generalizing scheme with
  | nil =>
    rw [append_nil] at hne ⊢
    exact if_neg hne
  | cons c s ih =>
    have hc : isLetter c := hs c mem_cons_self
    rw [cons_append, getSchemeFrom, if_pos hc,
      ih (fun b hb => hs b (mem_cons_of_mem c hb)) (by simp), append_assoc,
      singleton_append]

theorem parseUnfragmented_query (authority : List UInt8 → Bool) {scheme rest query : List UInt8}
    (hs : IsScheme scheme) (hcut : cut 63 rest = ([], query))
    (hcontrol : ∀ c ∈ rest, isControl c = false) :
    parseUnfragmented authority (scheme ++ 58 :: rest) = some ⟨scheme, query⟩ := by
  have hclean : (scheme ++ 58 :: rest).any isControl = false := by
    rw [any_append, any_cons, any_eq_false.mpr fun c hc => ?_, any_eq_false.mpr fun c hc => ?_]
    · rfl
    · rw [hcontrol c hc]
      exact nofun
    · have hsmall := hs.2 c hc
      rw [isControl, decide_eq_true_eq]
      omega
  have hstar : scheme ++ 58 :: rest ≠ [42] := by
    intro heq
    have hlast := congrArg (58 ∈ ·) heq
    simp at hlast
  have hget := @getSchemeFrom_letters (scheme ++ 58 :: rest) scheme hs.isLetter [] rest hs.1
  rw [parseUnfragmented, hclean, if_neg nofun, if_neg hstar, getScheme, hget]
  dsimp only
  rw [nil_append, hs.map_toLower, hcut]
  dsimp only
  have hok : restOk authority scheme [] = true := if_pos ⟨nofun, hs.1⟩
  rw [hok, if_pos rfl]

/-- **A URL** with a scheme and a query is read back. -/
theorem parse_string (authority : List UInt8 → Bool) {u : URL} (hs : IsScheme u.scheme)
    (hq : ∀ c ∈ u.rawQuery, isControl c = false ∧ c ≠ 35) : parse authority u.string = some u := by
  generalize hrest : (if u.rawQuery ≠ [] then 63 :: u.rawQuery else []) = rest
  have hmem : ∀ c ∈ rest, isControl c = false ∧ c ≠ 35 := by
    intro c hc
    rw [← hrest] at hc
    split at hc
    · rcases mem_cons.mp hc with rfl | hc
      · decide
      · exact hq c hc
    · cases hc
  have hcut : cut 63 rest = ([], u.rawQuery) := by
    rw [← hrest]
    split
    · exact cut_append (a := []) nofun u.rawQuery
    · next hnil =>
      rw [not_not.mp hnil]
      rfl
  have hfragment : 35 ∉ u.string := by
    rw [URL.string, hrest]
    intro h35
    rcases mem_append.mp h35 with h | h
    · exact absurd (hs.2 35 h).1 (by decide)
    · rcases mem_cons.mp h with h | h
      · cases h
      · exact (hmem 35 h).2 rfl
  rw [parse, cut_of_not_mem hfragment]
  dsimp only
  rw [URL.string, hrest, parseUnfragmented_query authority hs hcut fun c hc => (hmem c hc).1]
  rfl

end ReliableBT.Url
