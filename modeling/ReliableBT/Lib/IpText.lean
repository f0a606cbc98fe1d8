import ReliableBT.Lib.Ip

/-!
# The text of an IP address

`ipString` is `net.IP.String`: a dotted quad for an IPv4 address, also a mapped one, and groups of
hexadecimal digits for another address, the longest run of zero groups shortened to `::`.
`joinHostPort` and `splitHostPort` put a port after the text and take it off.

* `parseAddr_ipString`: `netip.ParseAddr` reads the address back, an IPv4 address in 4 bytes.
* `length_parseIP`: `net.ParseIP` gives 16 bytes.
-/

open List Option

namespace ReliableBT.Ip

open Decimal

/-- The fields of an IPv4 address, with dots between them. -/
def joinFields : List UInt8 → List UInt8
  | [] => []
  | [b] => formatNat b.toNat
  | b :: s => formatNat b.toNat ++ 46 :: joinFields s

/-- A digit of `0123456789abcdef`. -/
def hexDigit (k : ℕ) : UInt8 := .ofNat (if k < 10 then 48 + k else 87 + k)

/-- `appendHex`: up to four digits, without leading zeros -/
def appendHex (x : ℕ) : List UInt8 :=
  (if 4096 ≤ x then [hexDigit (x / 4096)] else []) ++
    (if 256 ≤ x then [hexDigit (x / 256 % 16)] else []) ++
    (if 16 ≤ x then [hexDigit (x / 16 % 16)] else []) ++ [hexDigit (x % 16)]

/-- The groups of an address. -/
def pairs : List UInt8 → List (UInt8 × UInt8)
  | a :: b :: s => (a, b) :: pairs s
  | _ => []

/-- The text of a group. -/
def groupText (g : UInt8 × UInt8) : List UInt8 := appendHex (256 * g.1.toNat + g.2.toNat)

/-- Groups with colons between them. -/
def joinGroups : List (UInt8 × UInt8) → List UInt8
  | [] => []
  | [g] => groupText g
  | g :: gs => groupText g ++ 58 :: joinGroups gs

/-- How many groups are zero from this one on. -/
def zeroRun (gs : List (UInt8 × UInt8)) (i : ℕ) : ℕ :=
  ((gs.drop i).takeWhile fun g => decide (g = (0, 0))).length

/-- `zeroStart` and `zeroEnd`: the first of the longest runs of zero groups -/
def longestRun (gs : List (UInt8 × UInt8)) : Option (ℕ × ℕ) :=
  (List.range 8).foldl (fun best i =>
    if 2 ≤ zeroRun gs i ∧ best.all (fun b => decide (b.2 - b.1 < zeroRun gs i)) then
      some (i, i + zeroRun gs i)
    else best) none

/-- `appendTo6` -/
def string6 (ip : List UInt8) : List UInt8 :=
  match longestRun (pairs ip) with
  | none => joinGroups (pairs ip)
  | some (zeroStart, zeroEnd) =>
    joinGroups ((pairs ip).take zeroStart) ++ 58 :: 58 :: joinGroups ((pairs ip).drop zeroEnd)

/-- `IP.String` -/
def ipString (ip : List UInt8) : List UInt8 :=
  if ip = [] then [60, 110, 105, 108, 62]
  else
    match to4 ip with
    | some a => joinFields a
    | none =>
      if ip.length = 16 then string6 ip
      -- `?` and the bytes in hexadecimal
      else 63 :: ip.flatMap fun b => [hexDigit (b.toNat / 16), hexDigit (b.toNat % 16)]

example : ipString [32, 1, 13, 184, 0, 0, 0, 0, 0, 0, 0, 0, 0, 0, 0, 1] =
    -- `2001:db8::1`
    [50, 48, 48, 49, 58, 100, 98, 56, 58, 58, 49] := by decide

/-! ## Dotted quads -/

theorem le_foldl_digits (ds : List UInt8) (n : ℕ) :
    n ≤ ds.foldl (fun n b => 10 * n + digitVal b) n := by
  induction ds generalizing n with
  | nil => exact le_rfl
  | cons c ds ih =>
    refine le_trans ?_ (ih _)
    dsimp only
    omega

variable {val digLen n : ℕ} {s : List UInt8} {gs hs : List (UInt8 × UInt8)} {c : UInt8}
  {ip r : List UInt8}

theorem parseIPv4Fields_digits {ds : List UInt8} (hall : ds.all isDigit) (rest fields : List UInt8)
    (hval : ds.foldl (fun n b => 10 * n + digitVal b) val ≤ 255)
    (hzero : val ≠ 0 ∨ digLen = 0 ∧ ∀ s, ds = 48 :: s → s = []) :
    parseIPv4Fields (ds ++ rest) fields val digLen =
      parseIPv4Fields rest fields (ds.foldl (fun n b => 10 * n + digitVal b) val)
        (digLen + ds.length) := by
  induction ds generalizing val digLen with
  | nil => rfl
  | cons c ds ih =>
    rw [all_cons, Bool.and_eq_true] at hall
    have hle := le_foldl_digits ds (10 * val + digitVal c)
    rw [foldl_cons] at hval
    rw [cons_append, parseIPv4Fields, if_pos hall.1, if_neg (by omega), if_neg (by omega)]
    by_cases hv : 10 * val + digitVal c = 0
    · -- a single zero
      have hc : c = 48 := by
        have hd := hall.1
        simp only [isDigit, decide_eq_true_eq] at hd
        have hdv : digitVal c = 0 := by omega
        rw [digitVal] at hdv
        exact UInt8.toNat_inj.mp (by change c.toNat = 48; omega)
      obtain rfl : ds = [] := by
        rcases hzero with h | ⟨-, h⟩
        · omega
        · exact h ds (by rw [hc])
      rfl
    · rw [ih hall.2 hval (.inl hv), foldl_cons, length_cons]
      congr 1
      omega

theorem formatNat_leading (h : formatNat n = 48 :: s) : s = [] := by
  by_cases hn : n = 0
  · subst hn
    exact (cons.inj h).2.symm
  · obtain ⟨b, u, hb, hlo, -⟩ := head_formatNat hn
    rw [h, cons.injEq] at hb
    rw [← hb.1] at hlo
    exact absurd hlo (by decide)

theorem parseIPv4Fields_formatNat (b : UInt8) (rest fields : List UInt8) :
    parseIPv4Fields (formatNat b.toNat ++ rest) fields 0 0 =
      parseIPv4Fields rest fields b.toNat (formatNat b.toNat).length := by
  have hvalue : (formatNat b.toNat).foldl (fun n b => 10 * n + digitVal b) 0 = b.toNat :=
    value_formatNat b.toNat
  have hlt := b.toNat_lt
  rw [parseIPv4Fields_digits (all_formatNat _) rest fields (by rw [hvalue]; omega)
    (.inr ⟨rfl, fun s hs => formatNat_leading hs⟩), hvalue, Nat.zero_add]

theorem joinFields_ne_nil (h : s ≠ []) : joinFields s ≠ [] := by
  match s, h with
  | [b], _ => exact formatNat_ne_nil _
  | b :: c :: s, _ => simp [joinFields]

/-- **A dotted quad** is read back. -/
theorem parseIPv4Fields_joinFields {s fields : List UInt8} (hne : s ≠ [])
    (hlen : fields.length + s.length = 4) :
    parseIPv4Fields (joinFields s) fields 0 0 = some (fields ++ s) := by
  match s, hne with
  | [b], _ =>
    have h := parseIPv4Fields_formatNat b [] fields
    rw [append_nil] at h
    rw [joinFields, h, parseIPv4Fields, if_neg (by simp at hlen; omega)]
    simp
  | b :: c :: s, _ =>
    have hdig : (formatNat b.toNat).length ≠ 0 := by simpa using formatNat_ne_nil b.toNat
    have hjoin : joinFields (b :: c :: s) = formatNat b.toNat ++ 46 :: joinFields (c :: s) := rfl
    rw [hjoin, parseIPv4Fields_formatNat, parseIPv4Fields, if_neg (by decide), if_pos rfl,
      if_neg (not_or.mpr ⟨hdig, joinFields_ne_nil (cons_ne_nil c s)⟩),
      if_neg (by simp at hlen; omega),
      parseIPv4Fields_joinFields (by simp) (by simp at hlen ⊢; omega)]
    simp
  termination_by s.length

/-! ## Groups -/

theorem hexDigit_spec {k : ℕ} (h : k < 16) : isHex (hexDigit k) ∧ hexVal (hexDigit k) = k := by
  revert k
  decide

theorem appendHex_spec {x : ℕ} (h : x < 65536) :
    appendHex x ≠ [] ∧ (appendHex x).length ≤ 4 ∧ (∀ c ∈ appendHex x, isHex c) ∧
      groupBytes (appendHex x) = [.ofNat (x / 256), .ofNat x] := by
  have h₁ := hexDigit_spec (k := x / 4096) (by omega)
  have h₂ := hexDigit_spec (k := x / 256 % 16) (by omega)
  have h₃ := hexDigit_spec (k := x / 16 % 16) (by omega)
  have h₄ := hexDigit_spec (k := x % 16) (by omega)
  have hvalue : (appendHex x).foldl (fun n c => 16 * n + hexVal c) 0 = x := by
    rw [appendHex]
    split_ifs <;> simp only [nil_append, cons_append, foldl_cons, foldl_nil,
      h₁.2, h₂.2, h₃.2, h₄.2] <;> omega
  refine ⟨by simp [appendHex], ?_, ?_, by rw [groupBytes, hvalue]⟩
  · rw [appendHex]
    split_ifs <;> simp
  · intro c hc
    simp only [appendHex, mem_append, mem_singleton] at hc
    rcases hc with ((hc | hc) | hc) | rfl
    · split_ifs at hc
      · rw [mem_singleton.mp hc]
        exact h₁.1
      · cases hc
    · split_ifs at hc
      · rw [mem_singleton.mp hc]
        exact h₂.1
      · cases hc
    · split_ifs at hc
      · rw [mem_singleton.mp hc]
        exact h₃.1
      · cases hc
    · exact h₄.1

theorem groupText_spec (g : UInt8 × UInt8) :
    groupText g ≠ [] ∧ (groupText g).length ≤ 4 ∧ (∀ c ∈ groupText g, isHex c) ∧
      groupBytes (groupText g) = [g.1, g.2] := by
  have hhi := g.1.toNat_lt
  have hlo := g.2.toNat_lt
  obtain ⟨hne, hlen, hall, hbytes⟩ := appendHex_spec (x := 256 * g.1.toNat + g.2.toNat) (by omega)
  refine ⟨hne, hlen, hall, ?_⟩
  have hdiv : (256 * g.1.toNat + g.2.toNat) / 256 = g.1.toNat := by omega
  have hmod : UInt8.ofNat (256 * g.1.toNat + g.2.toNat) = g.2 := by
    apply UInt8.toNat_inj.mp
    simp
  rw [groupText, hbytes, hdiv, hmod, UInt8.ofNat_toNat]

/-- The bytes of groups. -/
def unpairs (gs : List (UInt8 × UInt8)) : List UInt8 := gs.flatMap fun g => [g.1, g.2]

theorem unpairs_pairs {s : List UInt8} (h : s.length % 2 = 0) : unpairs (pairs s) = s := by
  match s with
  | [] => rfl
  | [a] => cases h
  | a :: b :: s =>
    have hs : s.length % 2 = 0 := by simp at h; omega
    rw [pairs, unpairs, flatMap_cons, ← unpairs, unpairs_pairs hs]
    rfl

theorem length_unpairs (gs : List (UInt8 × UInt8)) : (unpairs gs).length = 2 * gs.length := by
  induction gs with
  | nil => rfl
  | cons g gs ih =>
    rw [unpairs, flatMap_cons, ← unpairs, length_append, ih, length_cons]
    simp
    omega

theorem unpairs_append (gs hs : List (UInt8 × UInt8)) :
    unpairs (gs ++ hs) = unpairs gs ++ unpairs hs := flatMap_append

/-- One round of the loop of `parseIPv6`, at a group that is followed by nothing or by a colon. -/
theorem parseGroups_group (n : ℕ) (g : UInt8 × UInt8) (rest ip : List UInt8) (ellipsis : Option ℕ)
    (hrest : rest = [] ∨ ∃ s, rest = 58 :: s) :
    parseGroups (n + 1) (groupText g ++ rest) ip ellipsis =
      match rest with
      | [] => some (ip ++ [g.1, g.2], ellipsis)
      | [_] => none
      | _ :: c' :: rest =>
        if c' = 58 then
          if ellipsis.isSome then none
          else if rest = [] then some (ip ++ [g.1, g.2], some (ip.length + 2))
          else parseGroups n rest (ip ++ [g.1, g.2]) (some (ip.length + 2))
        else parseGroups n (c' :: rest) (ip ++ [g.1, g.2]) ellipsis := by
  obtain ⟨hne, hlen, hall, hbytes⟩ := groupText_spec g
  have hstop : rest.takeWhile isHex = [] ∧ rest.dropWhile isHex = rest := by
    rcases hrest with rfl | ⟨s, rfl⟩ <;> exact ⟨rfl, rfl⟩
  rw [parseGroups, takeWhile_append_of_pos hall, dropWhile_append_of_pos hall, hstop.1,
    hstop.2, append_nil, if_neg (not_or.mpr ⟨hne, not_lt.mpr hlen⟩), hbytes]
  rcases hrest with rfl | ⟨_ | ⟨c', s⟩, rfl⟩
  · rfl
  · rfl
  · rfl

theorem joinGroups_cons (g : UInt8 × UInt8) (h : gs ≠ []) :
    joinGroups (g :: gs) = groupText g ++ 58 :: joinGroups gs := by
  cases gs with
  | nil => exact absurd rfl h
  | cons _ _ => rfl

theorem joinGroups_head (h : gs ≠ []) : ∃ c s, joinGroups gs = c :: s ∧ isHex c := by
  obtain ⟨g, gs, rfl⟩ := exists_cons_of_ne_nil h
  obtain ⟨hne, -, hall, -⟩ := groupText_spec g
  obtain ⟨c, s, hs⟩ := exists_cons_of_ne_nil hne
  have hc : isHex c := hall c (by simp [hs])
  cases gs with
  | nil => exact ⟨c, s, hs, hc⟩
  | cons g' gs => exact ⟨c, s ++ 58 :: joinGroups (g' :: gs), by simp [joinGroups, hs], hc⟩

theorem parseGroups_append (n : ℕ) (gs : List (UInt8 × UInt8)) (g : UInt8 × UInt8)
    (rest ip : List UInt8) (ellipsis : Option ℕ) :
    parseGroups (gs.length + (n + 1)) (joinGroups (gs ++ [g]) ++ rest) ip ellipsis =
      parseGroups (n + 1) (groupText g ++ rest) (ip ++ unpairs gs) ellipsis := by
  induction gs generalizing ip with
  | nil => simp [joinGroups, unpairs]
  | cons g₀ gs ih =>
    obtain ⟨c, s, hs, hc⟩ := joinGroups_head (show gs ++ [g] ≠ [] by simp)
    have hc58 : c ≠ 58 := by rintro rfl; cases hc
    have hlen : (g₀ :: gs).length + (n + 1) = gs.length + (n + 1) + 1 := by simp; omega
    rw [hlen, cons_append, joinGroups_cons _ (by simp), append_assoc, cons_append,
      parseGroups_group _ _ _ _ _ (.inr ⟨_, rfl⟩), hs]
    simp only [cons_append]
    rw [if_neg hc58, ← cons_append, ← hs, ih]
    simp [unpairs]

/-- **Groups without `::`** are read back. -/
theorem parseGroups_joinGroups (hne : gs ≠ []) (hn : gs.length ≤ n) (ip : List UInt8)
    (ellipsis : Option ℕ) :
    parseGroups n (joinGroups gs) ip ellipsis = some (ip ++ unpairs gs, ellipsis) := by
  obtain ⟨gs, g, rfl⟩ := (eq_nil_or_concat' gs).resolve_left hne
  obtain ⟨m, rfl⟩ : ∃ m, n = gs.length + (m + 1) := ⟨n - (gs.length + 1), by simp at hn; omega⟩
  have happ := parseGroups_append m gs g [] ip ellipsis
  rw [append_nil] at happ
  rw [happ, parseGroups_group _ _ _ _ _ (.inl rfl), unpairs_append, append_assoc]
  rfl

/-- **Groups with a `::`** after the first of them are read back. -/
theorem parseGroups_ellipsis (hne : gs ≠ []) (hn : gs.length + hs.length ≤ n) :
    parseGroups n (joinGroups gs ++ 58 :: 58 :: joinGroups hs) [] none =
      some (unpairs gs ++ unpairs hs, some (2 * gs.length)) := by
  obtain ⟨gs, g, rfl⟩ := (eq_nil_or_concat' gs).resolve_left hne
  obtain ⟨m, rfl⟩ : ∃ m, n = gs.length + (m + 1) := ⟨n - (gs.length + 1), by simp at hn; omega⟩
  have hplace : (unpairs gs).length + 2 = 2 * (gs ++ [g]).length := by
    rw [length_unpairs, length_append, length_singleton]
    omega
  have hbytes : unpairs gs ++ [g.1, g.2] = unpairs (gs ++ [g]) := (unpairs_append gs [g]).symm
  rw [parseGroups_append, parseGroups_group _ _ _ _ _ (.inr ⟨_, rfl⟩), nil_append]
  dsimp only
  rw [if_pos rfl, if_neg (by decide), hplace, hbytes]
  by_cases hhs : hs = []
  · subst hhs
    simp [joinGroups, unpairs]
  · obtain ⟨c, s, hs', -⟩ := joinGroups_head hhs
    have hnil : joinGroups hs ≠ [] := by rw [hs']; exact cons_ne_nil c s
    rw [if_neg hnil, parseGroups_joinGroups hhs (by simp at hn; omega)]

/-! ## The run that is left out -/

theorem drop_eq_zeroRun (gs : List (UInt8 × UInt8)) (i : ℕ) :
    gs.drop i = replicate (zeroRun gs i) (0, 0) ++ gs.drop (i + zeroRun gs i) := by
  have hrun : (gs.drop i).takeWhile (fun g => decide (g = (0, 0))) =
      replicate (zeroRun gs i) (0, 0) := by
    refine eq_replicate_iff.mpr ⟨rfl, fun g hg => ?_⟩
    exact of_decide_eq_true (all_eq_true.mp all_takeWhile g hg)
  have hsplit : (gs.drop i).takeWhile (fun g => decide (g = (0, 0))) ++
      (gs.drop i).dropWhile (fun g => decide (g = (0, 0))) = gs.drop i :=
    takeWhile_append_dropWhile
  have hrest : gs.drop (i + zeroRun gs i) =
      (gs.drop i).dropWhile (fun g => decide (g = (0, 0))) := by
    rw [← drop_drop]
    conv_lhs => rw [← hsplit]
    exact drop_left' rfl
  rw [hrest, ← hrun, hsplit]

theorem longestRun_spec {a b : ℕ} (h : longestRun gs = some (a, b)) :
    a + 2 ≤ b ∧ gs = gs.take a ++ replicate (b - a) (0, 0) ++ gs.drop b := by
  suffices hfold : ∀ (l : List ℕ) (best : Option (ℕ × ℕ)),
      (∀ p ∈ best, p.1 + 2 ≤ p.2 ∧
        gs = gs.take p.1 ++ replicate (p.2 - p.1) (0, 0) ++ gs.drop p.2) →
      ∀ p ∈ l.foldl (fun best i =>
        if 2 ≤ zeroRun gs i ∧ best.all (fun b => decide (b.2 - b.1 < zeroRun gs i)) then
          some (i, i + zeroRun gs i)
        else best) best, p.1 + 2 ≤ p.2 ∧
          gs = gs.take p.1 ++ replicate (p.2 - p.1) (0, 0) ++ gs.drop p.2 from
    hfold _ none nofun (a, b) h
  intro l
  induction l with
  | nil => exact fun best hbest => hbest
  | cons i l ih =>
    intro best hbest
    refine ih _ ?_
    dsimp only
    split
    · next hi =>
      rintro p ⟨⟩
      refine ⟨by dsimp only; omega, ?_⟩
      dsimp only
      rw [Nat.add_sub_cancel_left, append_assoc, ← drop_eq_zeroRun, take_append_drop]
    · exact hbest

theorem unpairs_replicate (n : ℕ) : unpairs (replicate n (0, 0)) = replicate (2 * n) 0 := by
  induction n with
  | zero => rfl
  | succ n ih =>
    rw [replicate_succ, unpairs, flatMap_cons, ← unpairs, ih]
    rfl

/-- **`::` gives back the zero groups** it stands for. -/
theorem expand_ellipsis (hn : 0 < n) (h : gs.length + n + hs.length = 8) :
    expand (unpairs gs ++ unpairs hs, some (2 * gs.length)) =
      some (unpairs (gs ++ replicate n (0, 0) ++ hs)) := by
  have hg := length_unpairs gs
  have hh := length_unpairs hs
  rw [expand, if_pos (by rw [length_append]; omega), ← hg, take_left, drop_left,
    unpairs_append, unpairs_append, unpairs_replicate, length_append]
  have hmissing : 16 - ((unpairs gs).length + (unpairs hs).length) = 2 * n := by omega
  rw [hmissing]

/-! ## The text is read back -/

theorem length_pairs (h : s.length = 2 * n) : (pairs s).length = n := by
  have hs := length_unpairs (pairs s)
  rw [unpairs_pairs (by omega)] at hs
  omega

theorem parseIPv6_of_isHex (s : List UInt8) (h : isHex c) :
    parseIPv6 (c :: s) = (parseGroups 8 (c :: s) [] none).bind expand := by
  unfold parseIPv6
  split
  · next heq =>
    cases heq
    cases h
  · next heq =>
    cases heq
    cases h
  · rfl

theorem parseIPv6_string6 (hlen : ip.length = 16) : parseIPv6 (string6 ip) = some ip := by
  have hback : unpairs (pairs ip) = ip := unpairs_pairs (by omega)
  have hgroups : (pairs ip).length = 8 := length_pairs (by omega)
  rw [string6]
  split
  · have hne : pairs ip ≠ [] := fun h => by simp [h] at hgroups
    obtain ⟨c, s, hs, hc⟩ := joinGroups_head hne
    rw [hs, parseIPv6_of_isHex s hc, ← hs, parseGroups_joinGroups hne (by omega), hback]
    simp [expand, hlen]
  · next zeroStart zeroEnd hrun =>
    obtain ⟨hlt, hsplit⟩ := longestRun_spec hrun
    generalize (pairs ip).take zeroStart = gs at hsplit ⊢
    generalize (pairs ip).drop zeroEnd = hs at hsplit ⊢
    rw [hsplit] at hback hgroups
    have hcount : gs.length + (zeroEnd - zeroStart) + hs.length = 8 := by
      simpa [Nat.add_assoc] using hgroups
    have hexp := expand_ellipsis (by omega) hcount
    rw [hback] at hexp
    by_cases hgs : gs = []
    · subst hgs
      by_cases hhs : hs = []
      · -- all groups are zero
        subst hhs
        have hall : zeroEnd - zeroStart = 8 := by simpa using hcount
        rw [hall] at hback
        rw [← hback]
        rfl
      · obtain ⟨c, s, hs', -⟩ := joinGroups_head hhs
        have hparse := parseGroups_joinGroups hhs (n := 8) (by omega) [] (some 0)
        rw [hs'] at hparse ⊢
        change (parseGroups 8 (c :: s) [] (some 0)).bind expand = some ip
        rw [hparse]
        exact hexp
    · obtain ⟨c, s, hs', hc⟩ := joinGroups_head hgs
      rw [hs', cons_append, parseIPv6_of_isHex _ hc, ← cons_append, ← hs',
        parseGroups_ellipsis hgs (by omega)]
      exact hexp

theorem mem_joinGroups {gs : List (UInt8 × UInt8)} {c : UInt8} (h : c ∈ joinGroups gs) :
    isHex c ∨ c = 58 := by
  match gs with
  | [] => cases h
  | [g] => exact .inl ((groupText_spec g).2.2.1 c h)
  | g :: g' :: gs =>
    rw [joinGroups_cons g (by simp), mem_append, mem_cons] at h
    rcases h with h | h | h
    · exact .inl ((groupText_spec g).2.2.1 c h)
    · exact .inr h
    · exact mem_joinGroups h

theorem string6_chars (hlen : ip.length = 16) :
    58 ∈ string6 ip ∧ ∀ c ∈ string6 ip, isHex c ∨ c = 58 := by
  have hgroups : (pairs ip).length = 8 := length_pairs (by omega)
  rw [string6]
  split
  · refine ⟨?_, fun c hc => mem_joinGroups hc⟩
    match pairs ip, hgroups with
    | g :: g' :: gs, _ => simp [joinGroups]
  · refine ⟨by simp, fun c hc => ?_⟩
    rw [mem_append, mem_cons, mem_cons] at hc
    rcases hc with hc | hc | hc | hc
    · exact mem_joinGroups hc
    · exact .inr hc
    · exact .inr hc
    · exact mem_joinGroups hc

theorem mem_joinFields {s : List UInt8} {c : UInt8} (h : c ∈ joinFields s) :
    isDigit c ∨ c = 46 := by
  match s with
  | [] => cases h
  | [b] => exact .inl (all_eq_true.mp (all_formatNat _) c h)
  | b :: b' :: s =>
    have hjoin : joinFields (b :: b' :: s) = formatNat b.toNat ++ 46 :: joinFields (b' :: s) := rfl
    rw [hjoin, mem_append, mem_cons] at h
    rcases h with h | h | h
    · exact .inl (all_eq_true.mp (all_formatNat _) c h)
    · exact .inr h
    · exact mem_joinFields h

/-- The first separator decides how the text is read. -/
theorem find?_separator {x : UInt8} (hx : x = 46 ∨ x = 58) (hmem : x ∈ s)
    (hall : ∀ c ∈ s, isHex c ∨ c = x) :
    s.find? (fun c => decide (c = 46 ∨ c = 58 ∨ c = 37)) = some x := by
  cases hfind : s.find? (fun c => decide (c = 46 ∨ c = 58 ∨ c = 37)) with
  | none =>
    have hnot := find?_eq_none.mp hfind x hmem
    rcases hx with rfl | rfl <;> exact absurd rfl hnot
  | some y =>
    have hy : y = 46 ∨ y = 58 ∨ y = 37 := by simpa using find?_some hfind
    rcases hall y (mem_of_find?_eq_some hfind) with hhex | rfl
    · rcases hy with rfl | rfl | rfl <;> cases hhex
    · rfl

/-- **An address is read back from its text**, an IPv4 address in 4 bytes. -/
theorem parseAddr_ipString (hlen : ip.length = 4 ∨ ip.length = 16) :
    parseAddr (ipString ip) = some (unmap ip) := by
  have hne : ip ≠ [] := by rintro rfl; simp at hlen
  rw [ipString, if_neg hne, unmap]
  cases h4 : to4 ip with
  | some a =>
    obtain ⟨ha, -⟩ := to4_eq_some_iff.mp h4
    have hdot : 46 ∈ joinFields a := by
      obtain ⟨b, b', s, rfl⟩ : ∃ b b' s, a = b :: b' :: s := by
        rcases a with _ | ⟨b, _ | ⟨b', s⟩⟩
        · cases ha
        · cases ha
        · exact ⟨b, b', s, rfl⟩
      simp [joinFields]
    have hfind := find?_separator (.inl rfl) hdot fun c hc =>
      (mem_joinFields hc).imp_left isHex_of_isDigit
    simp only [parseAddr, hfind, getD_some]
    exact parseIPv4Fields_joinFields (by rintro rfl; cases ha) (by simpa using ha)
  | none =>
    have h16 : ip.length = 16 := by
      refine hlen.resolve_left fun h => ?_
      rw [to4, if_pos h] at h4
      cases h4
    obtain ⟨hcolon, hall⟩ := string6_chars h16
    have hzone : 37 ∉ string6 ip := fun h => by
      rcases hall 37 h with h | h <;> cases h
    simp only [parseAddr, if_pos h16, find?_separator (.inr rfl) hcolon hall, if_neg hzone,
      getD_none]
    exact parseIPv6_string6 h16

/-! ## Hosts and ports -/

/-- `net.JoinHostPort` -/
def joinHostPort (host port : List UInt8) : List UInt8 :=
  if 58 ∈ host then 91 :: host ++ 93 :: 58 :: port else host ++ 58 :: port

/-- `net.SplitHostPort`, none with an error: the port starts after the last colon, and a host with
colons is in brackets. -/
def splitHostPort (hostport : List UInt8) : Option (List UInt8 × List UInt8) :=
  match hostport.reverse.idxOf? 58 with
  | none => none
  | some k =>
    let i := hostport.length - 1 - k
    if hostport.head? = some 91 then
      match hostport.idxOf? 93 with
      | none => none
      | some close =>
        if close + 1 ≠ i then none
        else if 91 ∈ hostport.drop 1 ∨ 93 ∈ hostport.drop (close + 1) then none
        else some ((hostport.take close).drop 1, hostport.drop (i + 1))
    else if 58 ∈ hostport.take i then none
    else if 91 ∈ hostport ∨ 93 ∈ hostport then none
    else some (hostport.take i, hostport.drop (i + 1))

-- `[::1]:80`
example : splitHostPort (joinHostPort [58, 58, 49] [56, 48]) = some ([58, 58, 49], [56, 48]) := by
  decide

/-! ## What is read has 16 bytes -/

theorem length_parseIPv4Fields {fields : List UInt8} (hf : fields.length ≤ 3)
    (h : parseIPv4Fields s fields val digLen = some r) : r.length = 4 := by
  induction s generalizing fields val digLen with
  | nil =>
    rw [parseIPv4Fields] at h
    split at h
    · cases h
    · cases h
      simp
      omega
  | cons c s ih =>
    rw [parseIPv4Fields] at h
    split_ifs at h with _ _ _ _ _ h3
    · exact ih hf h
    · exact ih (by simp; omega) h

theorem length_groupBytes (ds : List UInt8) : (groupBytes ds).length = 2 := rfl

theorem length_parseGroups {ellipsis : Option ℕ} {r : List UInt8 × Option ℕ}
    (h : parseGroups n s ip ellipsis = some r) : r.1.length ≤ ip.length + 2 * n := by
  induction n generalizing s ip ellipsis with
  | zero =>
    rw [parseGroups] at h
    split at h
    · cases h
      simp
    · cases h
  | succ n ih =>
    rw [parseGroups] at h
    split at h
    · cases h
    split at h
    · cases h
      simp [length_groupBytes]
    · cases h
    · split_ifs at h with _ _ hn
      · obtain ⟨ip4, hip4, rfl⟩ := map_eq_some_iff.mp h
        have := length_parseIPv4Fields (by simp) hip4
        simp
        omega
      · cases h
        simp [length_groupBytes]
      · have := ih h
        simp [length_groupBytes] at this
        omega
      · have := ih h
        simp [length_groupBytes] at this
        omega

theorem length_expand {x : List UInt8 × Option ℕ} (hx : x.1.length ≤ 16) (h : expand x = some r) :
    r.length = 16 := by
  obtain ⟨ip, _ | k⟩ := x
  · rw [expand] at h
    split at h
    · cases h
    · cases h
      dsimp only at hx
      omega
  · rw [expand] at h
    split at h
    · cases h
      have hsplit := congrArg length (take_append_drop k ip)
      rw [length_append] at hsplit
      rw [length_append, length_append, length_replicate]
      omega
    · cases h

theorem length_parseIPv6 (h : parseIPv6 s = some r) : r.length = 16 := by
  have hloop : ∀ {s : List UInt8} {ellipsis : Option ℕ},
      (parseGroups 8 s [] ellipsis).bind expand = some r → r.length = 16 := by
    intro s ellipsis h
    obtain ⟨x, hx, hr⟩ := bind_eq_some_iff.mp h
    exact length_expand (by simpa using length_parseGroups hx) hr
  unfold parseIPv6 at h
  split at h
  · cases h
    rfl
  · exact hloop h
  · exact hloop h

/-- **`net.ParseIP` gives 16 bytes.** -/
theorem length_parseIP (h : parseIP s = some r) : r.length = 16 := by
  rw [parseIP] at h
  split at h
  · obtain ⟨ip4, hip4, rfl⟩ := map_eq_some_iff.mp h
    have := length_parseIPv4Fields (by simp) hip4
    simp [mapped, this]
  · split at h
    · cases h
    · exact length_parseIPv6 h
  · cases h

end ReliableBT.Ip
