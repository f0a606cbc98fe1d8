import ReliableBT.Lib.Decimal

/-!
# IP addresses and their texts

An address is a string of 4 bytes (IPv4) or of 16 bytes (IPv6, or an IPv4 address mapped into
IPv6): `to4` and `to16` change the form. `parseIP` is `net.ParseIP`, which reads an address from
its text with `netip.ParseAddr` and returns 16 bytes: a dotted quad is mapped, the groups of an
IPv6 address may be shortened by one `::` and may end in a dotted quad, and a zone is refused.

* `parseIP_ne_raw`: the bytes of an address, taken for a text, are never read as that address.
-/

open List Option

namespace ReliableBT.Ip

open Decimal

/-- `IP.To16` of an IPv4 address. -/
def mapped (a : List UInt8) : List UInt8 := replicate 10 0 ++ [255, 255] ++ a

/-- `IP.To4` -/
def to4 (ip : List UInt8) : Option (List UInt8) :=
  if ip.length = 4 then some ip
  else if ip.length = 16 ∧ ip = mapped (ip.drop 12) then some (ip.drop 12)
  else none

/-- `IP.To16` -/
def to16 (ip : List UInt8) : Option (List UInt8) :=
  if ip.length = 4 then some (mapped ip) else if ip.length = 16 then some ip else none

variable {ip a b s : List UInt8} {c : UInt8} {r : List UInt8}

theorem to4_eq_some_iff : to4 ip = some a ↔ a.length = 4 ∧ (ip = a ∨ ip = mapped a) := by
  rw [to4]
  split
  · next h =>
    constructor
    · rintro ⟨⟩
      exact ⟨h, .inl rfl⟩
    · rintro ⟨-, rfl | rfl⟩
      · rfl
      · simp [mapped] at h
  · next h =>
    split
    · next h' =>
      constructor
      · rintro ⟨⟩
        exact ⟨by simp [h'.1], .inr h'.2⟩
      · rintro ⟨ha, rfl | rfl⟩
        · exact absurd ha h
        · rfl
    · next h' =>
      refine iff_of_false nofun ?_
      rintro ⟨ha, rfl | rfl⟩
      · exact h ha
      · exact h' ⟨by simp [mapped, ha], rfl⟩

/-- The 4 bytes of an IPv4 address, the 16 bytes of another address. -/
def unmap (ip : List UInt8) : List UInt8 := (to4 ip).getD ip

/-- `IP.Equal`: an IPv4 address and the IPv6 address it is mapped to are equal. -/
def SameIP (a b : List UInt8) : Prop :=
  a = b ∨ (a.length = 4 ∧ b = mapped a) ∨ (b.length = 4 ∧ a = mapped b)

instance (a b : List UInt8) : Decidable (SameIP a b) := by unfold SameIP; infer_instance

theorem unmap_of_length (h : ip.length = 4) : unmap ip = ip := by
  rw [unmap, to4, if_pos h]
  rfl

theorem unmap_mapped (h : a.length = 4) : unmap (mapped a) = a := by
  rw [unmap, to4_eq_some_iff.mpr ⟨h, .inr rfl⟩]
  rfl

theorem SameIP.unmap_eq (h : SameIP a b) : unmap a = unmap b := by
  rcases h with rfl | ⟨ha, rfl⟩ | ⟨hb, rfl⟩
  · rfl
  · rw [unmap_mapped ha, unmap_of_length ha]
  · rw [unmap_mapped hb, unmap_of_length hb]

theorem SameIP.eq_iff_length (h : SameIP a b) : b = a ↔ b.length = a.length := by
  refine ⟨congrArg length, fun hlen => ?_⟩
  rcases h with rfl | ⟨ha, rfl⟩ | ⟨hb, rfl⟩
  · rfl
  · simp [mapped] at hlen
    omega
  · simp [mapped] at hlen
    omega

/-- `parseIPv4Fields`: what is left of the text, the fields before the current one, the value of
the current one and the number of its digits. -/
def parseIPv4Fields : List UInt8 → List UInt8 → ℕ → ℕ → Option (List UInt8)
  | [], fields, val, _ => if fields.length < 3 then none else some (fields ++ [.ofNat val])
  | c :: s, fields, val, digLen =>
    if isDigit c then
      if digLen = 1 ∧ val = 0 then none
      else if 255 < 10 * val + digitVal c then none
      else parseIPv4Fields s fields (10 * val + digitVal c) (digLen + 1)
    else if c = 46 then
      if digLen = 0 ∨ s = [] then none
      else if fields.length = 3 then none
      else parseIPv4Fields s (fields ++ [.ofNat val]) 0 0
    else none

/-- Is the byte a hexadecimal digit? -/
def isHex (c : UInt8) : Bool :=
  isDigit c || decide (97 ≤ c.toNat ∧ c.toNat ≤ 102) || decide (65 ≤ c.toNat ∧ c.toNat ≤ 70)

/-- The number a hexadecimal digit stands for. -/
def hexVal (c : UInt8) : ℕ :=
  if isDigit c then c.toNat - 48 else if 97 ≤ c.toNat then c.toNat - 87 else c.toNat - 55

/-- The two bytes of a group. -/
def groupBytes (ds : List UInt8) : List UInt8 :=
  let n := ds.foldl (fun n c => 16 * n + hexVal c) 0
  [.ofNat (n / 256), .ofNat n]

/-- The loop of `parseIPv6`, for at most `n` groups: the bytes before them, and the place of `::`
among these. -/
def parseGroups : ℕ → List UInt8 → List UInt8 → Option ℕ → Option (List UInt8 × Option ℕ)
  | 0, s, ip, ellipsis => if s = [] then some (ip, ellipsis) else none
  | n + 1, s, ip, ellipsis =>
    let ds := s.takeWhile isHex
    if ds = [] ∨ 4 < ds.length then none
    else
      match s.dropWhile isHex with
      | [] => some (ip ++ groupBytes ds, ellipsis)
      | [_] => none
      | c :: c' :: rest =>
        if c = 46 then
          -- an IPv4 address takes the place of the last two groups
          if ellipsis = none ∧ n ≠ 1 then none
          else if n = 0 then none
          else (parseIPv4Fields s [] 0 0).map fun ip4 => (ip ++ ip4, ellipsis)
        else if c = 58 then
          if c' = 58 then
            if ellipsis.isSome then none
            else if rest = [] then some (ip ++ groupBytes ds, some (ip.length + 2))
            else parseGroups n rest (ip ++ groupBytes ds) (some (ip.length + 2))
          else parseGroups n (c' :: rest) (ip ++ groupBytes ds) ellipsis
        else none

/-- What `parseIPv6` does after the loop: `::` stands for the groups that are missing. -/
def expand : List UInt8 × Option ℕ → Option (List UInt8)
  | (ip, none) => if ip.length < 16 then none else some ip
  | (ip, some k) =>
    if ip.length < 16 then some (ip.take k ++ replicate (16 - ip.length) 0 ++ ip.drop k)
    else none

/-- `parseIPv6`, of a text without a zone -/
def parseIPv6 : List UInt8 → Option (List UInt8)
  | 58 :: 58 :: [] => some (replicate 16 0)
  | 58 :: 58 :: s => (parseGroups 8 s [] (some 0)).bind expand
  | s => (parseGroups 8 s [] none).bind expand

/-- `netip.ParseAddr`, of a text without a zone: the 4 or 16 bytes of the address -/
def parseAddr (s : List UInt8) : Option (List UInt8) :=
  match s.find? fun c => decide (c = 46 ∨ c = 58 ∨ c = 37) with
  | some 46 => parseIPv4Fields s [] 0 0
  | some 58 => if 37 ∈ s then none else parseIPv6 s
  | _ => none

/-- `net.ParseIP`; an invalid address is none. -/
def parseIP (s : List UInt8) : Option (List UInt8) :=
  match s.find? fun c => decide (c = 46 ∨ c = 58 ∨ c = 37) with
  | some 46 => (parseIPv4Fields s [] 0 0).map mapped
  | some 58 => if 37 ∈ s then none else parseIPv6 s
  | _ => none

example : parseIP [49, 46, 50, 46, 51, 46, 52] = some (mapped [1, 2, 3, 4]) := by decide

/-! ## How many bytes a text can give -/

/-- The number of bytes that are not zero. -/
def weight (s : List UInt8) : ℕ := s.countP (· ≠ 0)

/-- The number of hexadecimal digits. -/
def digits (s : List UInt8) : ℕ := s.countP isHex

theorem weight_append (s u : List UInt8) : weight (s ++ u) = weight s + weight u :=
  countP_append ..

theorem weight_replicate (n : ℕ) : weight (replicate n 0) = 0 := by
  simp [weight, countP_replicate]

theorem weight_le (s : List UInt8) : weight s ≤ s.length := countP_le_length

theorem weight_of_notMem (h : 0 ∉ s) : weight s = s.length := by
  rw [weight, countP_eq_length]
  intro c hc
  have hne : c ≠ 0 := fun h0 => h (h0 ▸ hc)
  simpa using hne

theorem weight_ofNat_le (n : ℕ) : weight [.ofNat n] ≤ if n = 0 then 0 else 1 := by
  split
  · next h => subst h; decide
  · exact weight_le _

theorem isHex_of_isDigit (h : isDigit c) : isHex c := by
  simp [isHex, h]

/-- A quad of `s` has at least seven bytes, no zero byte, and at most a byte per digit. -/
theorem parseIPv4Fields_bounds {fields : List UInt8} {val digLen : ℕ}
    (hstart : digLen = 0 → val = 0 ∧ (s = [] → fields = []))
    (h : parseIPv4Fields s fields val digLen = some r) :
    0 ∉ s ∧ weight r ≤ weight fields + (if val = 0 then 0 else 1) + digits s ∧
      2 * (3 - fields.length) + (if digLen = 0 then 1 else 0) ≤ s.length := by
  induction s generalizing fields val digLen with
  | nil =>
    rw [parseIPv4Fields] at h
    split at h
    · cases h
    · next hlen =>
      cases h
      have hdig : digLen ≠ 0 := by
        intro h0
        have := (hstart h0).2 rfl
        simp [this] at hlen
      have hw := weight_ofNat_le val
      refine ⟨by simp, ?_, ?_⟩
      · rw [weight_append]
        omega
      · rw [if_neg hdig]
        omega
  | cons c s ih =>
    rw [parseIPv4Fields] at h
    by_cases hc : isDigit c
    · rw [if_pos hc] at h
      split at h
      · cases h
      split at h
      · cases h
      obtain ⟨hmem, hw, hl⟩ := ih (by omega) h
      have hd : digits (c :: s) = digits s + 1 := by simp [digits, isHex_of_isDigit hc]
      have hc0 : c ≠ 0 := by rintro rfl; cases hc
      refine ⟨by simp [hmem, hc0.symm], ?_, ?_⟩
      · rw [hd]
        split at hw <;> split <;> omega
      · rw [length_cons]
        split <;> omega
    · rw [if_neg hc] at h
      split at h
      · next h46 =>
        subst h46
        split at h
        · cases h
        next hne =>
        split at h
        · cases h
        next h3 =>
        obtain ⟨hdig, hnil⟩ := not_or.mp hne
        obtain ⟨hmem, hw, hl⟩ := ih (fun _ => ⟨rfl, fun hs => absurd hs hnil⟩) h
        have hv := weight_ofNat_le val
        rw [weight_append] at hw
        have hd : digits (46 :: s) = digits s := by simp [digits, show isHex 46 = false from rfl]
        refine ⟨by simp [hmem], ?_, ?_⟩
        · rw [hd]
          simp only [if_true] at hw
          omega
        · rw [length_append, length_singleton] at hl
          simp only [if_true] at hl
          rw [if_neg hdig, length_cons]
          omega
      · cases h

theorem hexVal_lt (h : isHex c) : hexVal c < 16 := by
  simp only [isHex, isDigit, Bool.or_eq_true, decide_eq_true_eq] at h
  simp only [hexVal, isDigit, decide_eq_true_eq]
  split
  · omega
  · split <;> omega

theorem weight_groupBytes {ds : List UInt8} (hne : ds ≠ []) (hall : ∀ c ∈ ds, isHex c) :
    weight (groupBytes ds) ≤ ds.length := by
  match ds, hne with
  | [c], _ =>
    have hlt := hexVal_lt (hall c (mem_singleton_self c))
    have hzero : hexVal c / 256 = 0 := by omega
    have hw := weight_ofNat_le (hexVal c)
    have heq : weight (groupBytes [c]) = weight [.ofNat (hexVal c)] := by
      simp [groupBytes, hzero, weight]
    rw [heq]
    exact hw.trans (by split <;> simp)
  | c :: c' :: ds, _ =>
    refine (weight_le _).trans ?_
    simp [groupBytes]

theorem parseGroups_bounds {n : ℕ} {ellipsis : Option ℕ} {r : List UInt8 × Option ℕ}
    (h : parseGroups n s ip ellipsis = some r) : 0 ∉ s ∧ weight r.1 ≤ weight ip + digits s := by
  induction n generalizing s ip ellipsis with
  | zero =>
    rw [parseGroups] at h
    split at h
    · next hs =>
      cases h
      simp [hs]
    · cases h
  | succ n ih =>
    rw [parseGroups] at h
    have hall : ∀ c ∈ s.takeWhile isHex, isHex c := all_eq_true.mp all_takeWhile
    have hs := takeWhile_append_dropWhile (p := isHex) (l := s)
    generalize s.takeWhile isHex = ds at h hall hs
    generalize s.dropWhile isHex = u at h hs
    have hdig : digits s = ds.length + digits u := by
      rw [← hs, digits, countP_append, countP_eq_length.mpr hall, digits]
    have h0 : 0 ∉ u → 0 ∉ s := by
      rw [← hs]
      intro hu hmem
      rcases mem_append.mp hmem with hd | hd
      · exact absurd (hall 0 hd) (by decide)
      · exact hu hd
    split at h
    · cases h
    next hne =>
    have hw := weight_groupBytes (not_or.mp hne).1 hall
    split at h
    · cases h
      refine ⟨h0 (by simp), ?_⟩
      rw [weight_append]
      omega
    · cases h
    next c c' rest =>
    split at h
    · split at h
      · cases h
      split at h
      · cases h
      obtain ⟨ip4, hip4, rfl⟩ := map_eq_some_iff.mp h
      obtain ⟨hmem, hw4, -⟩ := parseIPv4Fields_bounds (fun _ => ⟨rfl, fun _ => rfl⟩) hip4
      refine ⟨hmem, ?_⟩
      rw [weight_append]
      simpa [weight] using hw4
    split at h
    · next h58 =>
      subst h58
      split at h
      · next h58' =>
        subst h58'
        split at h
        · cases h
        split at h
        · next hrest =>
          cases h
          subst hrest
          refine ⟨h0 (by decide), ?_⟩
          rw [weight_append]
          omega
        · obtain ⟨hmem, hw'⟩ := ih h
          rw [weight_append] at hw'
          have hd : digits (58 :: 58 :: rest) = digits rest := by
            simp [digits, show isHex 58 = false from rfl]
          exact ⟨h0 (by simp [hmem]), by omega⟩
      · obtain ⟨hmem, hw'⟩ := ih h
        rw [weight_append] at hw'
        have hd : digits (58 :: c' :: rest) = digits (c' :: rest) := by
          simp [digits, show isHex 58 = false from rfl]
        refine ⟨h0 ?_, by omega⟩
        rw [mem_cons, not_or]
        exact ⟨by decide, hmem⟩
    · cases h

theorem weight_expand {x : List UInt8 × Option ℕ} (h : expand x = some r) :
    weight r = weight x.1 := by
  obtain ⟨ip, ellipsis⟩ := x
  cases ellipsis with
  | none =>
    rw [expand] at h
    split at h
    · cases h
    · cases h
      rfl
  | some k =>
    rw [expand] at h
    split at h
    · cases h
      rw [weight_append, weight_append, weight_replicate, Nat.add_zero, ← weight_append,
        take_append_drop]
    · cases h

theorem parseIPv6_bounds (h : parseIPv6 s = some r) : 0 ∉ s ∧ weight r ≤ digits s := by
  unfold parseIPv6 at h
  split at h
  · cases h
    decide
  · obtain ⟨x, hx, hr⟩ := bind_eq_some_iff.mp h
    obtain ⟨hmem, hw⟩ := parseGroups_bounds hx
    rw [weight_expand hr]
    exact ⟨by simp [hmem], by simpa [weight, digits, show isHex 58 = false from rfl] using hw⟩
  · obtain ⟨x, hx, hr⟩ := bind_eq_some_iff.mp h
    obtain ⟨hmem, hw⟩ := parseGroups_bounds hx
    rw [weight_expand hr]
    exact ⟨hmem, by simpa [weight] using hw⟩

theorem digits_lt (h : 58 ∈ s) : digits s < s.length := by
  have hle : digits s ≤ s.length := countP_le_length
  refine lt_of_le_of_ne hle fun heq => ?_
  exact absurd (countP_eq_length.mp heq 58 h) (by decide)

theorem zero_mem_mapped (a : List UInt8) : 0 ∈ mapped a := by simp [mapped]

/-- What is read from a dotted quad is mapped; otherwise the text has more bytes than the address
has bytes that are not zero. -/
theorem parseIP_bounds (h : parseIP s = some r) :
    0 ∉ s ∧ ((7 ≤ s.length ∧ 0 ∈ r) ∨ weight r < s.length) := by
  rw [parseIP] at h
  split at h
  · obtain ⟨ip4, hip4, rfl⟩ := map_eq_some_iff.mp h
    obtain ⟨hmem, -, hlen⟩ := parseIPv4Fields_bounds (fun _ => ⟨rfl, fun _ => rfl⟩) hip4
    exact ⟨hmem, .inl ⟨by simpa using hlen, zero_mem_mapped ip4⟩⟩
  · next hfind =>
    have hcolon : 58 ∈ s := mem_of_find?_eq_some hfind
    split at h
    · cases h
    · obtain ⟨hmem, hw⟩ := parseIPv6_bounds h
      exact ⟨hmem, .inr (lt_of_le_of_lt hw (digits_lt hcolon))⟩
  · cases h

/-- **An address is not its own text.** -/
theorem parseIP_ne_raw (h : parseIP s = some r) : ¬ SameIP s r := by
  obtain ⟨hmem, hr⟩ := parseIP_bounds h
  have hweight := weight_of_notMem hmem
  rintro (rfl | ⟨hs, rfl⟩ | ⟨-, rfl⟩)
  · rcases hr with ⟨-, h0⟩ | hlt
    · exact hmem h0
    · omega
  · have hmapped : weight (mapped s) = 2 + weight s := by
      rw [mapped, weight_append, weight_append, weight_replicate]
      rfl
    omega
  · exact hmem (zero_mem_mapped r)

end ReliableBT.Ip
