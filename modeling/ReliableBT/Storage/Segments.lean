import ReliableBT.Lib.Search

/-!
# Segments of a torrent (`segments/segments.go`, `segments/index.go`)

The data of a torrent is the concatenation of its files, the segments. `Scan` walks along the
segments from the first one and gives its callback the part of each segment that an extent of the
data, the needle, covers; `Index.Locate` finds the first such segment by binary search and scans
from there. The callback may stop the walk.

Offsets and lengths are natural numbers: the computations are exact as long as the total length is
below `2 ^ 63`. So the length of a part is never negative, which `Scan` checks.

A segment without bytes is given to the callback, too, if the needle has begun before it and goes on
behind it.

* `Tiles`: the parts of consecutive segments that make up an extent.
* `spans_tiles`, `locate_tiles`: `Scan` and `Locate` go through such parts.
* `locate_found`: `Locate` finds an extent inside the segments.
* `Tiles.mem_empty_iff`: the segments without bytes among them are those strictly inside the extent.
-/

open List Nat

namespace ReliableBT.Segments

/-- `Extent` -/
structure Extent where
  start : ℕ
  length : ℕ
  deriving DecidableEq, Repr

/-- `Extent.End` -/
def Extent.stop (e : Extent) : ℕ := e.start + e.length

variable {σ : Type}

/-- `Scan`, with the state of the callback, and from the index `i` on -/
def scan (callback : σ → ℕ → Extent → σ × Bool) : List ℕ → ℕ → Extent → σ → σ × Bool
  | haystack, i, needle, s =>
    if needle.length = 0 then (s, true)
    else
      match haystack with
      | [] => (s, false)
      | l :: haystack =>
        if needle.start < l ∨ (needle.start = l ∧ l = 0) then
          let e1 : Extent := ⟨needle.start, min l needle.stop - needle.start⟩
          match callback s i e1 with
          | (s, false) => (s, true)
          | (s, true) => scan callback haystack (i + 1) ⟨0, needle.length - e1.length⟩ s
        else scan callback haystack (i + 1) ⟨needle.start - l, needle.length⟩ s

/-- The loop of `NewIndex`. -/
def newIndexFrom (start : ℕ) : List ℕ → List Extent
  | [] => []
  | l :: segments => ⟨start, l⟩ :: newIndexFrom (start + l) segments

/-- `NewIndex` -/
def newIndex (segments : List ℕ) : List Extent := newIndexFrom 0 segments

/-- `Index.Locate` -/
def locate (segments : List Extent) (e : Extent) (output : σ → ℕ → Extent → σ × Bool) (s : σ) :
    σ × Bool :=
  let first := search segments.length fun i =>
    decide (e.start < (segments.getD i ⟨0, 0⟩).stop)
  if first = segments.length then (s, false)
  else
    scan output ((segments.drop first).map (·.length)) first
      ⟨e.start - (segments.getD first ⟨0, 0⟩).start, e.length⟩ s

/-! ## The parts of a walk -/

/-- The parts that `scan` gives to a callback that never stops it. -/
def spans : List ℕ → ℕ → Extent → List (ℕ × Extent)
  | haystack, i, needle =>
    if needle.length = 0 then []
    else
      match haystack with
      | [] => []
      | l :: haystack =>
        if needle.start < l ∨ (needle.start = l ∧ l = 0) then
          let e1 : Extent := ⟨needle.start, min l needle.stop - needle.start⟩
          (i, e1) :: spans haystack (i + 1) ⟨0, needle.length - e1.length⟩
        else spans haystack (i + 1) ⟨needle.start - l, needle.length⟩

/-- The callback, over a list of parts, until it stops. -/
def visitParts (callback : σ → ℕ → Extent → σ × Bool) : List (ℕ × Extent) → σ → σ
  | [], s => s
  | (i, e) :: parts, s =>
    match callback s i e with
    | (s, false) => s
    | (s, true) => visitParts callback parts s

theorem scan_eq_visitParts (callback : σ → ℕ → Extent → σ × Bool) (haystack : List ℕ) (i : ℕ)
    (needle : Extent) (s : σ) :
    (scan callback haystack i needle s).1 = visitParts callback (spans haystack i needle) s := by
  induction haystack generalizing i needle s with
  | nil =>
    unfold scan spans
    split
    · rfl
    · rfl
  | cons l haystack ih =>
    unfold scan spans
    split
    · rfl
    · dsimp only
      split
      · rw [visitParts]
        rcases callback s i _ with ⟨s', _ | _⟩
        · rfl
        · exact ih _ _ _
      · exact ih _ _ _

/-- Where a segment starts. -/
def offset (lens : List ℕ) (i : ℕ) : ℕ := (lens.take i).sum

/-- The parts, of consecutive segments from `i` on, make up the `len` bytes from `p` on. -/
inductive Tiles (lens : List ℕ) : ℕ → ℕ → ℕ → List (ℕ × Extent) → Prop
  | done {i p : ℕ} : Tiles lens i p 0 []
  | tile {i p l start n len : ℕ} {parts : List (ℕ × Extent)} (hl : lens[i]? = some l)
      (hp : offset lens i + start = p) (hin : start + n ≤ l) (hempty : n = 0 ↔ l = 0)
      (hmore : 0 < n + len) (hnext : 0 < len → start + n = l)
      (rest : Tiles lens (i + 1) (p + n) len parts) :
      Tiles lens i p (n + len) ((i, ⟨start, n⟩) :: parts)

/-! ## Scanning -/

variable {lens : List ℕ} {i l p len : ℕ} {e : Extent} {parts : List (ℕ × Extent)} {j : ℕ}

theorem offset_succ (h : lens[i]? = some l) : offset lens (i + 1) = offset lens i + l := by
  rw [offset, take_add_one, h, List.sum_append]
  rfl

theorem offset_mono {lens : List ℕ} {i j : ℕ} (h : i ≤ j) : offset lens i ≤ offset lens j := by
  have hsplit := sum_take_add_sum_drop (lens.take j) i
  rw [take_take, min_eq_left h] at hsplit
  exact le.intro hsplit

theorem eq_of_offset {lens : List ℕ} {i j q : ℕ} (hi : offset lens i ≤ q)
    (hi' : q < offset lens (i + 1)) (hj : offset lens j ≤ q) (hj' : q < offset lens (j + 1)) :
    i = j := by
  by_contra hne
  rcases lt_or_gt_of_ne hne with hlt | hlt
  · have : offset lens (i + 1) ≤ offset lens j := offset_mono hlt
    omega
  · have : offset lens (j + 1) ≤ offset lens i := offset_mono hlt
    omega

theorem getElem?_of_drop {rest : List ℕ} (h : lens.drop i = l :: rest) :
    lens[i]? = some l ∧ lens.drop (i + 1) = rest := by
  constructor
  · rw [← head?_drop, h, head?_cons]
  · rw [← tail_drop, h, tail_cons]

theorem offset_of_drop_nil (h : lens.drop i = []) : offset lens i = lens.sum := by
  rw [offset, take_of_length_le (drop_eq_nil_iff.mp h)]

theorem spans_nil (haystack : List ℕ) (i start : ℕ) : spans haystack i ⟨start, 0⟩ = [] := by
  unfold spans
  rfl

theorem tiles_cons {lens rest : List ℕ} {i l start len : ℕ} (hd : lens.drop i = l :: rest)
    (hlen : 0 < len) (hin : start < l ∨ (start = l ∧ l = 0))
    (hrest : ∀ len', offset lens (i + 1) + len' = offset lens i + start + len →
      Tiles lens (i + 1) (offset lens (i + 1)) len' (spans rest (i + 1) ⟨0, len'⟩)) :
    Tiles lens i (offset lens i + start) len (spans (l :: rest) i ⟨start, len⟩) := by
  obtain ⟨hl, -⟩ := getElem?_of_drop hd
  have hoff := offset_succ hl
  unfold spans
  rw [if_neg (by simpa using hlen.ne')]
  dsimp only
  rw [if_pos hin, Extent.stop]
  dsimp only
  generalize hn : min l (start + len) - start = n
  obtain ⟨len', rfl⟩ : ∃ len', len = n + len' := ⟨len - n, by omega⟩
  rw [Nat.add_sub_cancel_left]
  refine .tile hl rfl (by omega) (by omega) hlen (by omega) ?_
  -- either the needle ends here, or it goes on with the next segment
  by_cases hdone : len' = 0
  · rw [hdone, spans_nil]
    exact .done
  · have hp : offset lens i + start + n = offset lens (i + 1) := by omega
    rw [hp]
    exact hrest len' (by omega)

theorem spans_tiles_zero (rest : List ℕ) (i len : ℕ) (hd : lens.drop i = rest)
    (hfit : offset lens i + len ≤ lens.sum) :
    Tiles lens i (offset lens i) len (spans rest i ⟨0, len⟩) := by
  induction rest generalizing i len with
  | nil =>
    rw [offset_of_drop_nil hd] at hfit
    obtain rfl : len = 0 := by omega
    rw [spans_nil]
    exact .done
  | cons l rest ih =>
    by_cases hlen : len = 0
    · rw [hlen, spans_nil]
      exact .done
    · refine @tiles_cons lens rest i l 0 len hd (pos_of_ne_zero hlen) (by omega) ?_
      intro len' hlen'
      exact ih (i + 1) len' (getElem?_of_drop hd).2 (by omega)

theorem spans_tiles {lens : List ℕ} {i l start len : ℕ} (hl : lens[i]? = some l) (hin : start < l)
    (hfit : offset lens i + start + len ≤ lens.sum) :
    Tiles lens i (offset lens i + start) len (spans (lens.drop i) i ⟨start, len⟩) := by
  obtain ⟨rest, hd⟩ : ∃ rest, lens.drop i = l :: rest := by
    have hhead : (lens.drop i).head? = some l := by rw [head?_drop, hl]
    exact head?_eq_some_iff.mp hhead
  by_cases hlen : len = 0
  · rw [hlen, spans_nil]
    exact .done
  · rw [hd]
    refine tiles_cons hd (pos_of_ne_zero hlen) (.inl hin) fun len' hlen' => ?_
    exact spans_tiles_zero rest (i + 1) len' (getElem?_of_drop hd).2 (by omega)

example : spans [1, 0, 2, 0, 3] 0 ⟨2, 2⟩ = [(2, ⟨1, 1⟩), (3, ⟨0, 0⟩), (4, ⟨0, 1⟩)] := by decide

/-! ## The index -/

theorem length_newIndexFrom (start : ℕ) (lens : List ℕ) :
    (newIndexFrom start lens).length = lens.length := by
  induction lens generalizing start with
  | nil => rfl
  | cons l lens ih => exact congrArg (· + 1) (ih (start + l))

theorem map_length_newIndexFrom (start : ℕ) (lens : List ℕ) :
    (newIndexFrom start lens).map (·.length) = lens := by
  induction lens generalizing start with
  | nil => rfl
  | cons l lens ih => exact congrArg (l :: ·) (ih (start + l))

theorem getD_newIndexFrom (start : ℕ) (h : lens[i]? = some l) :
    (newIndexFrom start lens).getD i ⟨0, 0⟩ = ⟨start + offset lens i, l⟩ := by
  induction lens generalizing start i with
  | nil => cases h
  | cons l' lens ih =>
    cases i with
    | zero =>
      obtain rfl : l' = l := Option.some.inj h
      rfl
    | succ i =>
      refine (ih (start + l') h).trans ?_
      rw [offset, offset, take_succ_cons, sum_cons, add_assoc]

theorem getD_newIndex (h : lens[i]? = some l) :
    (newIndex lens).getD i ⟨0, 0⟩ = ⟨offset lens i, l⟩ := by
  rw [newIndex, getD_newIndexFrom 0 h, zero_add]

theorem splits_newIndex (lens : List ℕ) (p : ℕ) :
    Splits lens.length (fun i => decide (p < offset lens (i + 1)))
      (search (newIndex lens).length fun i =>
        decide (p < ((newIndex lens).getD i ⟨0, 0⟩).stop)) := by
  have hlen : (newIndex lens).length = lens.length := length_newIndexFrom 0 lens
  have hstop : ∀ i < lens.length, ((newIndex lens).getD i ⟨0, 0⟩).stop = offset lens (i + 1) := by
    intro i hi
    have hl : lens[i]? = some lens[i] := getElem?_eq_getElem hi
    rw [getD_newIndex hl, offset_succ hl, Extent.stop]
  have hsplits := splits_search (n := lens.length)
    (f := fun i => decide (p < ((newIndex lens).getD i ⟨0, 0⟩).stop)) (by
      intro a b hab hb ha
      rw [decide_eq_true_eq, hstop _ (by omega)] at ha
      rw [decide_eq_true_eq, hstop _ hb]
      exact lt_of_lt_of_le ha (offset_mono (by omega)))
  rw [hlen]
  refine ⟨hsplits.le, ?_, ?_⟩
  · intro k hk
    have hb := hsplits.before k hk
    rw [hstop k (by have := hsplits.le; omega)] at hb
    exact hb
  · intro k hk hkn
    have ha := hsplits.after k hk hkn
    rw [hstop k hkn] at ha
    exact ha

theorem locate_of_sum_le (hp : lens.sum ≤ p) (len : ℕ) (output : σ → ℕ → Extent → σ × Bool)
    (s : σ) :
    locate (newIndex lens) ⟨p, len⟩ output s = (s, false) := by
  have hsplits := splits_newIndex lens p
  have hlen : (newIndex lens).length = lens.length := length_newIndexFrom 0 lens
  rw [locate]
  refine if_pos (Eq.trans ?_ hlen.symm)
  by_contra hne
  have hlt := lt_of_le_of_ne hsplits.le hne
  have hafter := of_decide_eq_true (hsplits.after _ (le_refl _) hlt)
  have htotal := @offset_mono lens _ _ (succ_le_of_lt hlt)
  rw [offset_of_drop_nil (drop_length)] at htotal
  exact absurd (lt_of_lt_of_le hafter (htotal.trans hp)) (lt_irrefl p)

theorem locate_of_lt_sum {lens : List ℕ} {p : ℕ} (hp : p < lens.sum) :
    ∃ i l, lens[i]? = some l ∧ offset lens i ≤ p ∧ p < offset lens (i + 1) ∧
      ∀ {σ : Type} (len : ℕ) (output : σ → ℕ → Extent → σ × Bool) (s : σ),
        locate (newIndex lens) ⟨p, len⟩ output s =
          scan output (lens.drop i) i ⟨p - offset lens i, len⟩ s := by
  have hsplits := splits_newIndex lens p
  generalize hfirst : (search (newIndex lens).length fun i =>
    decide (p < ((newIndex lens).getD i ⟨0, 0⟩).stop)) = first at hsplits
  have hlen : (newIndex lens).length = lens.length := length_newIndexFrom 0 lens
  have hlt : first < lens.length := by
    refine lt_of_le_of_ne hsplits.le fun hend => ?_
    have h0 : 0 < lens.length := by
      refine length_pos_iff.mpr fun hnil => ?_
      rw [hnil] at hp
      exact absurd hp (not_lt_zero p)
    have hlast := of_decide_eq_false (hsplits.before (lens.length - 1) (by omega))
    rw [Nat.sub_add_cancel h0, offset, take_length] at hlast
    exact hlast hp
  have hl : lens[first]? = some lens[first] := getElem?_eq_getElem hlt
  have hbefore : offset lens first ≤ p := by
    cases first with
    | zero => exact zero_le p
    | succ k => exact Nat.le_of_not_lt (of_decide_eq_false (hsplits.before k (Nat.lt_succ_self k)))
  refine ⟨first, lens[first], hl, hbefore,
    of_decide_eq_true (hsplits.after first (le_refl _) hlt), fun len output s => ?_⟩
  rw [locate]
  dsimp only
  rw [hfirst, if_neg (by rw [hlen]; exact hlt.ne), getD_newIndex hl, map_drop, newIndex,
    map_length_newIndexFrom]

/-- **`Locate`** goes through the parts of consecutive segments that make up the extent. The first
segment has bytes. -/
theorem locate_tiles (hfit : p + len ≤ lens.sum) :
    ∃ i parts, Tiles lens i p len parts ∧ (0 < len → offset lens i ≤ p ∧ p < offset lens (i + 1)) ∧
      ∀ {σ : Type} (output : σ → ℕ → Extent → σ × Bool) (s : σ),
        (locate (newIndex lens) ⟨p, len⟩ output s).1 = visitParts output parts s := by
  by_cases hp : p < lens.sum
  · obtain ⟨i, l, hl, hbefore, hafter, hlocate⟩ := locate_of_lt_sum hp
    have hsucc := offset_succ hl
    refine ⟨i, spans (lens.drop i) i ⟨p - offset lens i, len⟩, ?_, fun _ => ⟨hbefore, hafter⟩,
      fun output s => ?_⟩
    · have htiles := @spans_tiles lens i l (p - offset lens i) len hl (by omega) (by omega)
      rwa [Nat.add_sub_cancel' hbefore] at htiles
    · rw [hlocate]
      exact scan_eq_visitParts output _ _ _ s
  · obtain rfl : len = 0 := by omega
    refine ⟨0, [], .done, by omega, fun output s => ?_⟩
    rw [locate_of_sum_le (by omega)]
    rfl

/-- `Scan` finds the end of a needle that fits, whether or not the callback stops it. -/
theorem scan_found (callback : σ → ℕ → Extent → σ × Bool) {haystack : List ℕ} (i : ℕ)
    {needle : Extent} (s : σ) (hfit : needle.stop ≤ haystack.sum) :
    (scan callback haystack i needle s).2 = true := by
  induction haystack generalizing i needle s with
  | nil =>
    have hlen : needle.length = 0 := by
      rw [Extent.stop, sum_nil] at hfit
      omega
    unfold scan
    rw [if_pos hlen]
  | cons l haystack ih =>
    rw [Extent.stop, sum_cons] at hfit
    unfold scan
    split
    · rfl
    · dsimp only
      split
      · rcases callback s i _ with ⟨s', _ | _⟩
        · rfl
        · refine ih (i + 1) s' ?_
          rw [Extent.stop, Extent.stop]
          dsimp only
          omega
      · refine ih (i + 1) s ?_
        rw [Extent.stop]
        dsimp only
        omega

theorem locate_found (hpos : 0 < e.length) (hfit : e.stop ≤ lens.sum)
    (output : σ → ℕ → Extent → σ × Bool) (s : σ) :
    (locate (newIndex lens) e output s).2 = true := by
  obtain ⟨p, len⟩ := e
  rw [Extent.stop] at hfit
  dsimp only at hpos hfit
  obtain ⟨i, l, -, hbefore, -, hlocate⟩ := @locate_of_lt_sum lens p (by omega)
  rw [hlocate]
  refine scan_found output i s ?_
  have hsplit := sum_take_add_sum_drop lens i
  rw [offset] at hbefore
  rw [Extent.stop, offset]
  dsimp only
  omega

/-! ## Which parts there are -/

theorem Tiles.mem (h : Tiles lens i p len parts) (hj : (j, e) ∈ parts) :
    ∃ l, lens[j]? = some l ∧ e.stop ≤ l ∧ (e.length = 0 ↔ l = 0) ∧ i ≤ j ∧
      p ≤ offset lens j + e.start ∧ offset lens j + e.start < p + len ∧
      offset lens j + e.stop ≤ p + len := by
  induction h with
  | done => cases hj
  | @tile i p l start n len parts hl hp hin hempty hmore hnext rest ih =>
    rcases mem_cons.mp hj with heq | hrest
    · obtain ⟨rfl, rfl⟩ := Prod.mk.inj heq
      dsimp only [Extent.stop]
      exact ⟨l, hl, hin, hempty, le_refl _, by omega, by omega, by omega⟩
    · obtain ⟨l', hl', hstop, hzero, hij, hlo, hhi, hend⟩ := ih hrest
      exact ⟨l', hl', hstop, hzero, by omega, by omega, by omega, by omega⟩

theorem Tiles.mem_of_empty (h : Tiles lens i p len parts) (hij : i ≤ j) (hj : lens[j]? = some 0)
    (hlo : p ≤ offset lens j) (hhi : offset lens j < p + len) : (j, ⟨0, 0⟩) ∈ parts := by
  induction h with
  | done => omega
  | @tile i p l start n len parts hl hp hin hempty hmore hnext rest ih =>
    by_cases heq : i = j
    · subst heq
      obtain rfl : l = 0 := Option.some.inj (hl.symm.trans hj)
      obtain rfl : n = 0 := hempty.mpr rfl
      obtain rfl : start = 0 := by omega
      exact mem_cons_self
    · have hoff : offset lens (i + 1) ≤ offset lens j := offset_mono (by omega)
      rw [offset_succ hl] at hoff
      exact mem_cons_of_mem _ (ih (by omega) (by omega) (by omega))

theorem Tiles.mem_empty_iff {lens : List ℕ} {i p len : ℕ} {parts : List (ℕ × Extent)}
    (h : Tiles lens i p len parts) (hi : offset lens i ≤ p ∧ p < offset lens (i + 1)) {j : ℕ} :
    (j, ⟨0, 0⟩) ∈ parts ↔ lens[j]? = some 0 ∧ p < offset lens j ∧ offset lens j < p + len := by
  constructor
  · intro hj
    obtain ⟨l, hl, -, hzero, hij, hlo, hhi, -⟩ := h.mem hj
    obtain rfl : l = 0 := hzero.mp rfl
    have hne : i ≠ j := by
      rintro rfl
      have := offset_succ hl
      omega
    have hoff : offset lens (i + 1) ≤ offset lens j := offset_mono (by omega)
    exact ⟨hl, by omega, hhi⟩
  · rintro ⟨hl, hlo, hhi⟩
    have hij : i ≤ j := by
      by_contra hji
      have : offset lens j ≤ offset lens i := offset_mono (by omega)
      omega
    exact h.mem_of_empty hij hl (by omega) hhi

end ReliableBT.Segments
