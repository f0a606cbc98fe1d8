import ReliableBT.Bencode.Value
import ReliableBT.Lib.Ip
import ReliableBT.Lib.Search

/-!
# Blocklists (`iplist/iplist.go`)

An `IPList` holds ranges of addresses, sorted by their first address in byte order. `Lookup` takes
an IPv4 address for its 4 bytes first, and if that finds nothing, every address for its 16 bytes.
Each time a binary search finds the last range that starts at or below these bytes, and the address
is in the list if that range also ends at or above them.

Ranges of 4 and of 16 bytes are in one list and are compared with each other, byte by byte, so that
a range of the other family can be found in place of the right one, and the bytes of an address can
lie between the ends of a range of the other family.

* `lookup_iff`: the search finds the range that is nearest to the bytes, from below.
* `lookup_exact_iff`: `Lookup` answers for the ranges of the address's own family exactly when the
  nearest ranges are not of the other family, or do not reach the bytes.
-/

open List Nat

namespace ReliableBT.IpList

open ReliableBT.Bencode ReliableBT.Ip

/-- `Range` -/
structure Range where
  first : Str := []
  last : Str := []
  description : Str := []
  deriving DecidableEq

/-- `bad IP` -/
def badIP : Str := [98, 97, 100, 32, 73, 80]

/-- What `lookup` searches for: does the range after this one start above the address? -/
def followingExceeds (ranges : List Range) (ip : Str) (i : ℕ) : Bool :=
  match ranges[i + 1]? with
  | none => true
  | some r => decide (ord ip < ord r.first)

/-- `lookup`, for the ranges of a list: the range, and is the address in it? -/
def lookupBytes (ranges : List Range) (ip : Str) : Range × Bool :=
  match ranges[search ranges.length (followingExceeds ranges ip)]? with
  | none => ({}, false)
  | some r => (r, decide (ord r.first ≤ ord ip ∧ ord ip ≤ ord r.last))

/-- The part of `Lookup` after the IPv4 address was not found. -/
def lookup16 (ranges : List Range) (ip : Str) : Range × Bool :=
  match to16 ip with
  | some v6 => lookupBytes ranges v6
  | none => ({ description := badIP }, true)

/-- `Lookup` -/
def lookup (ranges : List Range) (ip : Str) : Range × Bool :=
  match to4 ip with
  | some v4 =>
    if (lookupBytes ranges v4).2 then lookupBytes ranges v4 else lookup16 ranges ip
  | none => lookup16 ranges ip

/-! ## Lists of ranges -/

/-- Both ends of a range are of one family and in order; the list is sorted, and ranges of one
family do not overlap. -/
structure WellFormed (ranges : List Range) : Prop where
  family : ∀ R ∈ ranges, (R.first.length = 4 ∨ R.first.length = 16) ∧ R.last.length = R.first.length
  ordered : ∀ R ∈ ranges, ord R.first ≤ ord R.last
  sorted : ranges.Pairwise fun R S => ord R.first ≤ ord S.first
  disjoint : ranges.Pairwise fun R S =>
    R.first.length = S.first.length → ord R.last < ord S.first

/-- The bytes lie between the ends of the range. -/
def Range.Contains (R : Range) (ip : Str) : Prop := ord R.first ≤ ord ip ∧ ord ip ≤ ord R.last

/-- Of the ranges that start at or below the bytes, this one starts last. -/
def Nearest (ranges : List Range) (ip : Str) (R : Range) : Prop :=
  R ∈ ranges ∧ ord R.first ≤ ord ip ∧ ∀ S ∈ ranges, ord S.first ≤ ord ip → ord S.first ≤ ord R.first

/-- The nearest range ends at or above the bytes. -/
def Hits (ranges : List Range) (ip : Str) (R : Range) : Prop :=
  Nearest ranges ip R ∧ ord ip ≤ ord R.last

section
variable {ranges : List Range} (hwf : WellFormed ranges)
include hwf

variable {i j : ℕ} {R S : Range} {ip : Str}

theorem first_le (hi : ranges[i]? = some R) (hj : ranges[j]? = some S) (hij : i ≤ j) :
    ord R.first ≤ ord S.first := by
  obtain ⟨hi', rfl⟩ := List.getElem?_eq_some_iff.mp hi
  obtain ⟨hj', rfl⟩ := List.getElem?_eq_some_iff.mp hj
  rcases lt_or_eq_of_le hij with h | rfl
  · exact pairwise_iff_getElem.mp hwf.sorted i j hi' hj' h
  · exact le_rfl

theorem eq_of_first (hR : R ∈ ranges) (hS : S ∈ ranges) (h : ord R.first = ord S.first) :
    R = S := by
  obtain ⟨i, hi, rfl⟩ := getElem_of_mem hR
  obtain ⟨j, hj, rfl⟩ := getElem_of_mem hS
  have hlen := congrArg length (ord_injective h)
  rcases lt_trichotomy i j with hij | rfl | hij
  · have hlt := pairwise_iff_getElem.mp hwf.disjoint i j hi hj hij hlen
    exact absurd (h ▸ hwf.ordered _ hR) (not_le.mpr hlt)
  · rfl
  · have hlt := pairwise_iff_getElem.mp hwf.disjoint j i hj hi hij hlen.symm
    exact absurd (h ▸ hwf.ordered _ hS) (not_le.mpr hlt)

theorem lt_of_followingExceeds (hi : followingExceeds ranges ip i = true) (hj : ranges[j]? = some S)
    (hij : i < j) : ord ip < ord S.first := by
  rw [followingExceeds] at hi
  split at hi
  · next h =>
    have hlt := (List.getElem?_eq_some_iff.mp hj).1
    have hle := getElem?_eq_none_iff.mp h
    omega
  · next r hr => exact lt_of_lt_of_le (of_decide_eq_true hi) (first_le hwf hr hj hij)

theorem splits_followingExceeds (ip : Str) :
    Splits ranges.length (followingExceeds ranges ip)
      (search ranges.length (followingExceeds ranges ip)) := by
  refine splits_search fun a b hab _ ha => ?_
  rw [followingExceeds]
  split
  · rfl
  · next r hr => exact decide_eq_true (lt_of_followingExceeds hwf ha hr (by omega))

/-- **The search** ends at the range that starts last of those that start at or below the bytes, if
there is one. -/
theorem exists_index (ip : Str) (hne : ranges ≠ []) :
    ∃ r, ranges[search ranges.length (followingExceeds ranges ip)]? = some r ∧
      (∀ S ∈ ranges, ord S.first ≤ ord ip → ord S.first ≤ ord r.first ∧ ord r.first ≤ ord ip) := by
  have hsplits := splits_followingExceeds hwf ip
  set i := search ranges.length (followingExceeds ranges ip)
  have hpos : 0 < ranges.length := length_pos_of_ne_nil hne
  have hlt : i < ranges.length := by
    -- nothing follows the last range
    by_contra hge
    have hlast := hsplits.before (ranges.length - 1) (by omega)
    rw [followingExceeds, getElem?_eq_none (by omega)] at hlast
    cases hlast
  refine ⟨ranges[i], getElem?_eq_getElem hlt, fun S hS hle => ?_⟩
  obtain ⟨j, hj, rfl⟩ := getElem_of_mem hS
  have hji : j ≤ i := by
    by_contra hij
    have habove := lt_of_followingExceeds hwf (hsplits.after i le_rfl hlt)
      (getElem?_eq_getElem hj) (by omega)
    exact absurd hle (not_le.mpr habove)
  refine ⟨first_le hwf (getElem?_eq_getElem hj) (getElem?_eq_getElem hlt) hji, ?_⟩
  rcases lt_or_eq_of_le hji with h | rfl
  · have hbefore := hsplits.before (i - 1) (by omega)
    rw [followingExceeds, Nat.sub_add_cancel (by omega), getElem?_eq_getElem hlt] at hbefore
    exact not_lt.mp (of_decide_eq_false hbefore)
  · exact hle

/-- **What is found** is the nearest range, if it reaches the bytes. -/
theorem lookupBytes_iff : lookupBytes ranges ip = (R, true) ↔ Hits ranges ip R := by
  rw [lookupBytes]
  by_cases hne : ranges = []
  · subst hne
    exact iff_of_false nofun fun h => by cases h.1.1
  obtain ⟨r, hr, hnear⟩ := exists_index hwf ip hne
  have hmem : r ∈ ranges := mem_of_getElem? hr
  rw [hr]
  simp only [Prod.mk.injEq, decide_eq_true_eq]
  constructor
  · rintro ⟨rfl, hfirst, hlast⟩
    exact ⟨⟨hmem, hfirst, fun S hS hle => (hnear S hS hle).1⟩, hlast⟩
  · rintro ⟨⟨hR, hfirst, hmax⟩, hlast⟩
    obtain ⟨hle, hrle⟩ := hnear R hR hfirst
    obtain rfl : r = R := eq_of_first hwf hmem hR (le_antisymm (hmax r hmem hrle) hle)
    exact ⟨rfl, hrle, hlast⟩

theorem Hits.unique (hR : Hits ranges ip R) (hS : Hits ranges ip S) : R = S :=
  eq_of_first hwf hR.1.1 hS.1.1
    (le_antisymm (hS.1.2.2 R hR.1.1 hR.1.2.1) (hR.1.2.2 S hS.1.1 hS.1.2.1))

end

/-! ## Exact answers -/

/-- The range is of the family of the address, and contains it. -/
def Own (ranges : List Range) (ip : Str) (R : Range) : Prop :=
  R ∈ ranges ∧ R.first.length = ip.length ∧ R.Contains ip

/-- The answer is the range of the address's own family that contains it, if there is one. -/
def Exact (ranges : List Range) (ip : Str) : Prop :=
  ((lookup ranges ip).2 = true ↔ ∃ R, Own ranges (unmap ip) R) ∧
    ((lookup ranges ip).2 = true → Own ranges (unmap ip) (lookup ranges ip).1)

/-- The nearest range ends below the bytes. -/
def Misses (ranges : List Range) (ip : Str) : Prop :=
  ∀ R, Nearest ranges ip R → ord R.last < ord ip

/-- No range of the other family disturbs: the range that contains the address is the nearest one
to it, or it is found by the second search of an IPv4 address; or there is none, and the nearest
ranges to the bytes that are searched for do not reach them. -/
def Undisturbed (ranges : List Range) (ip : Str) : Prop :=
  (∃ R, Own ranges (unmap ip) R ∧ Nearest ranges (unmap ip) R) ∨
    (∃ a R, to4 ip = some a ∧ Own ranges a R ∧ Misses ranges a ∧ Hits ranges (mapped a) R) ∨
    ((∀ R, ¬ Own ranges (unmap ip) R) ∧ Misses ranges (unmap ip) ∧
      ∀ a, to4 ip = some a → Misses ranges (mapped a))

variable {ranges : List Range} {ip : Str} {R : Range}

theorem misses_iff : Misses ranges ip ↔ ∀ R, ¬ Hits ranges ip R :=
  forall_congr' fun _ => ⟨fun h hR => absurd hR.2 (not_le.mpr (h hR.1)),
    fun h hR => not_le.mp fun hle => h ⟨hR, hle⟩⟩

/-- What `Lookup` finds. -/
def Found (ranges : List Range) (ip : Str) (R : Range) : Prop :=
  match to4 ip with
  | some a => Hits ranges a R ∨ Misses ranges a ∧ Hits ranges (mapped a) R
  | none => Hits ranges ip R

theorem lookup16_eq (hip : ip.length = 4 ∨ ip.length = 16) :
    lookup16 ranges ip = lookupBytes ranges (if ip.length = 4 then mapped ip else ip) := by
  rw [lookup16, to16]
  rcases hip with h | h
  · simp [h]
  · simp [h]

theorem lookup_iff (hwf : WellFormed ranges) (hip : ip.length = 4 ∨ ip.length = 16) :
    lookup ranges ip = (R, true) ↔ Found ranges ip R := by
  have hsecond : ∀ a, to4 ip = some a → lookup16 ranges ip = lookupBytes ranges (mapped a) := by
    intro a ha
    rw [lookup16_eq hip]
    obtain ⟨hlen, rfl | rfl⟩ := to4_eq_some_iff.mp ha
    · rw [if_pos hlen]
    · rw [if_neg (by simp [mapped])]
  rw [lookup, Found]
  cases h : to4 ip with
  | none =>
    have hne : ip.length ≠ 4 := by
      intro h4
      rw [to4, if_pos h4] at h
      cases h
    dsimp only
    rw [lookup16_eq hip, if_neg hne]
    exact lookupBytes_iff hwf
  | some a =>
    dsimp only
    rw [hsecond a h, misses_iff]
    cases hfirst : (lookupBytes ranges a).2 with
    | true =>
      have hit := (lookupBytes_iff hwf).mp (Prod.ext rfl hfirst)
      rw [if_pos rfl, lookupBytes_iff hwf]
      exact ⟨.inl, fun h => h.resolve_right fun h => h.1 _ hit⟩
    | false =>
      have hmiss : ∀ S, ¬ Hits ranges a S := by
        intro S hS
        rw [(lookupBytes_iff hwf).mpr hS] at hfirst
        cases hfirst
      rw [if_neg (by simp), lookupBytes_iff hwf]
      exact ⟨fun h => .inr ⟨hmiss, h⟩, fun h => (h.resolve_left (hmiss R)).2⟩

theorem exact_iff_found (hwf : WellFormed ranges) (hip : ip.length = 4 ∨ ip.length = 16) :
    Exact ranges ip ↔
      (∀ R, Found ranges ip R → Own ranges (unmap ip) R) ∧
        ((∃ R, Own ranges (unmap ip) R) → ∃ R, Found ranges ip R) := by
  have hok : (lookup ranges ip).2 = true ↔ ∃ R, Found ranges ip R := by
    constructor
    · exact fun h => ⟨_, (lookup_iff hwf hip).mp (Prod.ext rfl h)⟩
    · rintro ⟨R, hR⟩
      rw [(lookup_iff hwf hip).mpr hR]
  rw [Exact, hok]
  constructor
  · rintro ⟨hiff, hown⟩
    refine ⟨fun R hR => ?_, hiff.mpr⟩
    have h := hown ⟨R, hR⟩
    rwa [(lookup_iff hwf hip).mpr hR] at h
  · rintro ⟨hown, hex⟩
    refine ⟨⟨fun ⟨R, hR⟩ => ⟨R, hown R hR⟩, hex⟩, ?_⟩
    rintro ⟨R, hR⟩
    rw [(lookup_iff hwf hip).mpr hR]
    exact hown R hR

theorem Own.hits (h : Own ranges ip R) (hnear : Nearest ranges ip R) :
    Hits ranges ip R := ⟨hnear, h.2.2.2⟩

/-- **Lookup.** For a list whose ranges are sorted and do not overlap within a family, the answer is
exact for just the addresses that no range of the other family disturbs. -/
theorem lookup_exact_iff {ranges : List Range} (hwf : WellFormed ranges) {ip : Str}
    (hip : ip.length = 4 ∨ ip.length = 16) : Exact ranges ip ↔ Undisturbed ranges ip := by
  rw [exact_iff_found hwf hip, Undisturbed]
  cases h : to4 ip with
  | none =>
    have hfound : ∀ R, Found ranges ip R ↔ Hits ranges ip R := fun R => by rw [Found, h]
    have hown : unmap ip = ip := by rw [unmap, h, Option.getD_none]
    simp only [hfound, hown]
    constructor
    · rintro ⟨hfown, hex⟩
      by_cases hs : ∃ R, Own ranges ip R
      · obtain ⟨R, hR⟩ := hex hs
        exact .inl ⟨R, hfown R hR, hR.1⟩
      · refine .inr (.inr ⟨fun R hR => hs ⟨R, hR⟩, ?_, by rintro _ ⟨⟩⟩)
        exact misses_iff.mpr fun R hR => hs ⟨R, hfown R hR⟩
    · rintro (⟨R, hR, hnear⟩ | ⟨a, R, ha, -⟩ | ⟨hno, hmiss, -⟩)
      · refine ⟨fun S hS => ?_, fun _ => ⟨R, hR.hits hnear⟩⟩
        rwa [Hits.unique hwf hS (hR.hits hnear)]
      · cases ha
      · exact ⟨fun R hR => absurd hR (misses_iff.mp hmiss R),
          fun hR => absurd hR.choose_spec (hno _)⟩
  | some a =>
    have hfound : ∀ R, Found ranges ip R ↔
        Hits ranges a R ∨ Misses ranges a ∧ Hits ranges (mapped a) R := fun R => by rw [Found, h]
    have hown : unmap ip = a := by rw [unmap, h, Option.getD_some]
    simp only [hfound, hown]
    constructor
    · rintro ⟨hfown, hex⟩
      by_cases hs : ∃ R, Own ranges a R
      · obtain ⟨R, hR | ⟨hmiss, hR⟩⟩ := hex hs
        · exact .inl ⟨R, hfown R (.inl hR), hR.1⟩
        · exact .inr (.inl ⟨a, R, rfl, hfown R (.inr ⟨hmiss, hR⟩), hmiss, hR⟩)
      · have hmiss : Misses ranges a := misses_iff.mpr fun R hR => hs ⟨R, hfown R (.inl hR)⟩
        refine .inr (.inr ⟨fun R hR => hs ⟨R, hR⟩, hmiss, ?_⟩)
        rintro _ ⟨⟩
        exact misses_iff.mpr fun R hR => hs ⟨R, hfown R (.inr ⟨hmiss, hR⟩)⟩
    · rintro (⟨R, hR, hnear⟩ | ⟨a', R, ha, hR, hmiss, hhit⟩ | ⟨hno, hmiss, hmiss'⟩)
      · refine ⟨fun S hS => ?_, fun _ => ⟨R, .inl (hR.hits hnear)⟩⟩
        rcases hS with hS | ⟨hmiss, -⟩
        · rwa [Hits.unique hwf hS (hR.hits hnear)]
        · exact absurd (hR.hits hnear) (misses_iff.mp hmiss R)
      · cases ha
        refine ⟨fun S hS => ?_, fun _ => ⟨R, .inr ⟨hmiss, hhit⟩⟩⟩
        rcases hS with hS | ⟨-, hS⟩
        · exact absurd hS (misses_iff.mp hmiss S)
        · rwa [Hits.unique hwf hS hhit]
      · refine ⟨fun R hR => ?_, fun hR => absurd hR.choose_spec (hno _)⟩
        rcases hR with hR | ⟨-, hR⟩
        · exact absurd hR (misses_iff.mp hmiss R)
        · exact absurd hR (misses_iff.mp (hmiss' a rfl) R)

/-- `1.2.3.0-1.2.3.255`, `9.0.0.0-9.255.255.255` and `2001::-2001::1`. -/
def threeRanges : List Range :=
  [⟨[1, 2, 3, 0], [1, 2, 3, 255], []⟩, ⟨[9, 0, 0, 0], [9, 255, 255, 255], []⟩,
    ⟨[32, 1, 0, 0, 0, 0, 0, 0, 0, 0, 0, 0, 0, 0, 0, 0],
      [32, 1, 0, 0, 0, 0, 0, 0, 0, 0, 0, 0, 0, 0, 0, 1], []⟩]

/-- `9.8.7.6` is in the second of the ranges. -/
theorem lookup_exact_threeRanges : WellFormed threeRanges ∧ Exact threeRanges [9, 8, 7, 6] := by
  have hwf : WellFormed threeRanges := by constructor <;> decide
  refine ⟨hwf, (lookup_exact_iff hwf (.inl rfl)).mpr (.inl ?_)⟩
  refine ⟨⟨[9, 0, 0, 0], [9, 255, 255, 255], []⟩, ⟨by decide, rfl, by decide, by decide⟩, ?_⟩
  exact ⟨by decide, by decide, by decide⟩

/-- With a range that starts at `0.0.0.0` every IPv4 address is found, here `8.8.8.8`; and an IPv6
range (`808::-808::1`) hides the IPv4 range that `8.8.8.8` is in. -/
theorem lookup_inexact :
    (WellFormed [⟨[0, 0, 0, 0], [0, 255, 255, 255], []⟩] ∧
      lookup [⟨[0, 0, 0, 0], [0, 255, 255, 255], []⟩] [8, 8, 8, 8] =
        (⟨[0, 0, 0, 0], [0, 255, 255, 255], []⟩, true)) ∧
    WellFormed [⟨[1, 0, 0, 0], [9, 0, 0, 0], []⟩,
        ⟨[8, 8, 0, 0, 0, 0, 0, 0, 0, 0, 0, 0, 0, 0, 0, 0],
          [8, 8, 0, 0, 0, 0, 0, 0, 0, 0, 0, 0, 0, 0, 0, 1], []⟩] ∧
      (lookup [⟨[1, 0, 0, 0], [9, 0, 0, 0], []⟩,
        ⟨[8, 8, 0, 0, 0, 0, 0, 0, 0, 0, 0, 0, 0, 0, 0, 0],
          [8, 8, 0, 0, 0, 0, 0, 0, 0, 0, 0, 0, 0, 0, 0, 1], []⟩] [8, 8, 8, 8]).2 = false := by
  refine ⟨⟨?_, by decide⟩, ?_, by decide⟩
  · constructor <;> decide
  · constructor <;> decide

end ReliableBT.IpList
