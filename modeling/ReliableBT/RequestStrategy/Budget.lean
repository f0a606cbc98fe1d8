import ReliableBT.RequestStrategy.Order
import ReliableBT.Torrent.Geometry

/-!
# The pieces that may be requested (`request-strategy/order.go`)

`GetRequestablePieces` scans the piece request order with two budgets. Every piece is charged to the
storage capacity, and the scan ends at the first one for which the capacity does not suffice. Only
the pieces it calls back are charged to `MaxUnverifiedBytes`, and one for which that does not
suffice is passed over.

The sum that is compared with `MaxUnverifiedBytes` is an `int64`. If it wraps around, it is below
every limit, and the piece is called back.

* `scanItems_called`: what holds of the pieces called back whatever the sums.
* `requestable_within_budget`: the pieces called back, and why the others are not, exactly if the
  sum stays below `2 ^ 63` at every piece that is compared with a limit.
* `unverified_bytes_wrap`: a limit near `2 ^ 63` is exceeded.
-/

open List Option

namespace ReliableBT.RequestStrategy

/-- `Input`, with what it says of the torrents. -/
structure Input where
  /-- `PieceLength` of the torrent with this info hash -/
  pieceLength : Nat → ℤ
  ignorePiece : Nat → ℤ → Bool := fun _ _ => false
  capacity : Option ℤ := none
  maxUnverifiedBytes : ℤ

/-- The variables of `GetRequestablePieces`, and the items it has called `f` for. -/
structure Scan where
  storageLeft : Option ℤ
  allTorrentsUnverifiedBytes : ℤ := 0
  lastItem : Option Item := none
  called : List Item := []

namespace Input

variable (input : Input) (ml : Multiless)

/-- The numbers are `int64`s that are not negative. -/
structure Bounded : Prop where
  pieceLength : ∀ infoHash, 0 ≤ input.pieceLength infoHash ∧ input.pieceLength infoHash < 2 ^ 63
  capacity : ∀ c ∈ input.capacity, 0 ≤ c ∧ c < 2 ^ 63
  max : 0 ≤ input.maxUnverifiedBytes ∧ input.maxUnverifiedBytes < 2 ^ 63

/-- The piece length of an item. -/
def length (i : Item) : ℤ := input.pieceLength i.key.infoHash

/-- The function that `GetRequestablePieces` scans with. -/
def visit (s : Scan) (i : Item) : Except Panic (Scan × Bool) :=
  if s.lastItem.any fun last => ml.less (pieceOrderLess i last) then .error .scanNotInOrder
  else
    let s := { s with lastItem := some i }
    if s.storageLeft.any fun left => decide (left < input.length i) then .ok (s, false)
    else
      let s := { s with storageLeft := s.storageLeft.map fun left => i64 (left - input.length i) }
      if input.ignorePiece i.key.infoHash i.key.index then .ok (s, true)
      else
        let unverified := i64 (s.allTorrentsUnverifiedBytes + input.length i)
        if input.maxUnverifiedBytes ≠ 0 ∧ input.maxUnverifiedBytes < unverified then .ok (s, true)
        else
          .ok ({ s with allTorrentsUnverifiedBytes := unverified, called := s.called ++ [i] }, true)

/-- `GetRequestablePieces`: the items `f` is called for -/
def getRequestablePieces (pro : PieceRequestOrder) : Except Panic (List Item) :=
  Scan.called <$> pro.tree.scan (input.visit ml) { storageLeft := input.capacity }

/-- The piece lengths of the items, summed. -/
def total (items : List Item) : ℤ := (items.map input.length).sum

/-- With sums that do not wrap around, every sum that is compared with the limit is below
`2 ^ 63`. -/
def SumsFit : Option ℤ → ℤ → List Item → Prop
  | _, _, [] => True
  | left, unverified, i :: items =>
    if left.any fun c => decide (c < input.length i) then True
    else
      let left := left.map (· - input.length i)
      let sum := unverified + input.length i
      if input.ignorePiece i.key.infoHash i.key.index then SumsFit left unverified items
      else sum < 2 ^ 63 ∧
        SumsFit left (if input.maxUnverifiedBytes < sum then unverified else sum) items

instance (left : Option ℤ) (unverified : ℤ) (items : List Item) :
    Decidable (input.SumsFit left unverified items) := by
  induction items generalizing left unverified with
  | nil => exact .isTrue trivial
  | cons i items ih =>
    have := ih
    unfold SumsFit
    infer_instance

/-- Of the items, with so much capacity left and so many bytes unverified, the right ones are
called back: the lengths are within both budgets, and an item that is not ignored is missing only if
the items up to it are too long, or it is on top of the unverified bytes. -/
structure Chosen (left : Option ℤ) (unverified : ℤ) (items called : List Item) : Prop where
  sublist : called.Sublist items
  capacity : ∀ c ∈ left, input.total called ≤ c
  max : input.maxUnverifiedBytes ≠ 0 → unverified + input.total called ≤ input.maxUnverifiedBytes
  missing : ∀ before i, before ++ [i] <+: items →
    input.ignorePiece i.key.infoHash i.key.index = false → i ∉ called →
      (∃ c ∈ left, c < input.total (before ++ [i])) ∨ input.maxUnverifiedBytes ≠ 0 ∧
        input.maxUnverifiedBytes <
          unverified + input.total (called.filter (· ∈ before)) + input.length i

variable {input} {items called : List Item} {s : Scan} {i : Item} {left : Option ℤ}
  {unverified : ℤ} {pro : PieceRequestOrder} {ml : Multiless}

theorem Bounded.length_nonneg (hinput : input.Bounded) (i : Item) : 0 ≤ input.length i :=
  (hinput.pieceLength _).1

theorem Bounded.length_lt (hinput : input.Bounded) (i : Item) : input.length i < 2 ^ 63 :=
  (hinput.pieceLength _).2

@[simp] theorem total_nil : input.total [] = 0 := rfl

@[simp] theorem total_cons (i : Item) (items : List Item) :
    input.total (i :: items) = input.length i + input.total items := sum_cons

theorem Bounded.total_nonneg (hinput : input.Bounded) (items : List Item) :
    0 ≤ input.total items := by
  induction items with
  | nil => exact le_rfl
  | cons i items ih =>
    rw [total_cons]
    exact add_nonneg (hinput.length_nonneg i) ih

theorem Chosen.stop (hinput : input.Bounded) {c : ℤ} (hc : c < input.length i) (hnonneg : 0 ≤ c)
    (hmax : input.maxUnverifiedBytes ≠ 0 → unverified ≤ input.maxUnverifiedBytes) :
    input.Chosen (some c) unverified (i :: items) [] where
  sublist := nil_sublist _
  capacity _ h := mem_some_iff.mp h ▸ hnonneg
  max h := by simpa using hmax h
  missing before j hj _ _ := by
    refine .inl ⟨c, rfl, ?_⟩
    obtain ⟨t, ht⟩ := hj
    cases before with
    | nil =>
      obtain ⟨rfl, -⟩ := cons.inj ht
      simpa using hc
    | cons k before =>
      obtain ⟨rfl, -⟩ := cons.inj ht
      have := hinput.total_nonneg (before ++ [j])
      rw [cons_append, total_cons]
      omega

theorem Chosen.missing_cons
    (h : input.Chosen (left.map (· - input.length i)) unverified items called) (hi : i ∉ items)
    {before : List Item} {j : Item} (hj : before ++ [j] <+: items)
    (hignore : input.ignorePiece j.key.infoHash j.key.index = false) (hmem : j ∉ called) :
    (∃ c ∈ left, c < input.total (i :: before ++ [j])) ∨ input.maxUnverifiedBytes ≠ 0 ∧
      input.maxUnverifiedBytes <
        unverified + input.total (called.filter (· ∈ i :: before)) + input.length j := by
  have hfilter : called.filter (· ∈ i :: before) = called.filter (· ∈ before) := by
    refine filter_congr fun k hk => ?_
    have hne : k ≠ i := fun hki => hi (hki ▸ h.sublist.subset hk)
    simp [hne]
  rw [hfilter]
  refine (h.missing before j hj hignore hmem).imp_left ?_
  rintro ⟨_, hmap, hlt⟩
  obtain ⟨c, hc, rfl⟩ := map_eq_some_iff.mp hmap
  refine ⟨c, hc, ?_⟩
  rw [cons_append, total_cons]
  omega

theorem Chosen.pass (hinput : input.Bounded)
    (h : input.Chosen (left.map (· - input.length i)) unverified items called) (hi : i ∉ items)
    (hwhy : input.ignorePiece i.key.infoHash i.key.index = false → input.maxUnverifiedBytes ≠ 0 ∧
      input.maxUnverifiedBytes < unverified + input.length i) :
    input.Chosen left unverified (i :: items) called where
  sublist := h.sublist.cons i
  capacity c hc := by
    have := h.capacity _ (mem_map_of_mem _ hc)
    have := hinput.length_nonneg i
    omega
  max := h.max
  missing before j hj hignore hmem := by
    cases before with
    | nil =>
      obtain ⟨rfl, -⟩ := cons_prefix_cons.mp hj
      exact .inr (by simpa using hwhy hignore)
    | cons k before =>
      obtain ⟨rfl, hj'⟩ := cons_prefix_cons.mp hj
      exact h.missing_cons hi hj' hignore hmem

theorem Chosen.call {sum : ℤ}
    (h : input.Chosen (left.map (· - input.length i)) sum items called)
    (hsum : input.maxUnverifiedBytes ≠ 0 → sum = unverified + input.length i) (hi : i ∉ items) :
    input.Chosen left unverified (i :: items) (i :: called) where
  sublist := h.sublist.cons_cons i
  capacity c hc := by
    have := h.capacity _ (mem_map_of_mem _ hc)
    rw [total_cons]
    omega
  max hmax := by
    have := h.max hmax
    rw [hsum hmax] at this
    rw [total_cons]
    omega
  missing before j hj hignore hmem := by
    cases before with
    | nil =>
      obtain ⟨rfl, -⟩ := cons_prefix_cons.mp hj
      exact absurd mem_cons_self hmem
    | cons k before =>
      obtain ⟨rfl, hj'⟩ := cons_prefix_cons.mp hj
      rw [filter_cons_of_pos (by simp), total_cons, ← add_assoc]
      refine (h.missing_cons hi hj' hignore fun hj => hmem (mem_cons_of_mem _ hj)).imp_right ?_
      exact fun ⟨hmax, hlt⟩ => ⟨hmax, hsum hmax ▸ hlt⟩

/-- The right items are called back, unless a sum wraps around: then the limit is exceeded. -/
structure Scanned (input : Input) (left : Option ℤ) (unverified : ℤ) (items called : List Item) :
    Prop where
  chosen : input.maxUnverifiedBytes = 0 ∨ input.SumsFit left unverified items →
    input.Chosen left unverified items called
  exceeded : input.maxUnverifiedBytes ≠ 0 → ¬ input.SumsFit left unverified items →
    2 ^ 63 ≤ unverified + input.total called

namespace Scanned

theorem nil (hleft : ∀ c ∈ left, 0 ≤ c)
    (hmax : input.maxUnverifiedBytes ≠ 0 → unverified ≤ input.maxUnverifiedBytes) :
    input.Scanned left unverified [] [] where
  chosen _ := ⟨.slnil, hleft, by simpa using hmax, by simp⟩
  exceeded _ h := absurd trivial h

theorem stop (hinput : input.Bounded) {c : ℤ} (hc : c < input.length i) (hnonneg : 0 ≤ c)
    (hmax : input.maxUnverifiedBytes ≠ 0 → unverified ≤ input.maxUnverifiedBytes) :
    input.Scanned (some c) unverified (i :: items) [] where
  chosen _ := .stop hinput hc hnonneg hmax
  exceeded _ h := absurd (by simp [SumsFit, hc]) h

variable (hroom : ¬ (left.any fun c => decide (c < input.length i)) = true)
include hroom

theorem ignore (hinput : input.Bounded)
    (h : input.Scanned (left.map (· - input.length i)) unverified items called) (hi : i ∉ items)
    (hignore : input.ignorePiece i.key.infoHash i.key.index = true) :
    input.Scanned left unverified (i :: items) called := by
  constructor <;> rw [SumsFit, if_neg hroom, if_pos hignore]
  · exact fun hfit => (h.chosen hfit).pass hinput hi (by simp [hignore])
  · exact h.exceeded

variable (hignore : ¬ input.ignorePiece i.key.infoHash i.key.index = true)
include hignore

theorem sumsFit_cons : input.SumsFit left unverified (i :: items) ↔
    unverified + input.length i < 2 ^ 63 ∧ input.SumsFit (left.map (· - input.length i))
      (if input.maxUnverifiedBytes < unverified + input.length i then unverified
        else unverified + input.length i) items := by
  rw [SumsFit, if_neg hroom, if_neg hignore]

theorem wrap (hinput : input.Bounded) (called : List Item)
    (hover : input.maxUnverifiedBytes ≠ 0 ∧ 2 ^ 63 ≤ unverified + input.length i) :
    input.Scanned left unverified (i :: items) (i :: called) where
  chosen h := by
    have hfit := ((sumsFit_cons hroom hignore).mp (h.resolve_left hover.1)).1
    exact absurd hover.2 hfit.not_ge
  exceeded _ _ := by
    have := hinput.total_nonneg called
    rw [total_cons]
    omega

theorem excess (hinput : input.Bounded)
    (h : input.Scanned (left.map (· - input.length i)) unverified items called) (hi : i ∉ items)
    (hfit : unverified + input.length i < 2 ^ 63) (hexcess : input.maxUnverifiedBytes ≠ 0 ∧
      input.maxUnverifiedBytes < unverified + input.length i) :
    input.Scanned left unverified (i :: items) called := by
  constructor <;> rw [sumsFit_cons hroom hignore, if_pos hexcess.2]
  · exact fun h' => (h.chosen (h'.imp_right And.right)).pass hinput hi fun _ => hexcess
  · exact fun hno h' => h.exceeded hno fun hrest => h' ⟨hfit, hrest⟩

theorem call {sum : ℤ} (h : input.Scanned (left.map (· - input.length i)) sum items called)
    (hi : i ∉ items) (hsum : input.maxUnverifiedBytes ≠ 0 →
      sum = unverified + input.length i ∧ sum ≤ input.maxUnverifiedBytes ∧ sum < 2 ^ 63) :
    input.Scanned left unverified (i :: items) (i :: called) := by
  have hrest : input.maxUnverifiedBytes ≠ 0 → (input.SumsFit left unverified (i :: items) ↔
      input.SumsFit (left.map (· - input.length i)) sum items) := by
    intro hno
    obtain ⟨rfl, hle, hlt⟩ := hsum hno
    rw [sumsFit_cons hroom hignore, if_neg hle.not_gt]
    exact and_iff_right hlt
  constructor
  · refine fun h' => (h.chosen ?_).call (fun hno => (hsum hno).1) hi
    exact or_iff_not_imp_left.mpr fun hno => (hrest hno).mp (h'.resolve_left hno)
  · intro hno h'
    have := h.exceeded hno (mt (hrest hno).mpr h')
    rw [(hsum hno).1] at this
    rw [total_cons]
    omega

end Scanned

theorem i64_of_range {n : ℤ} (h0 : 0 ≤ n) (h : n < 2 ^ 63) : i64 n = n :=
  Int.bmod_eq_of_le (by omega) (by omega)

theorem i64_of_overflow {n : ℤ} (h : 2 ^ 63 ≤ n) (h' : n < 2 ^ 64) : i64 n = n - 2 ^ 64 := by
  rw [i64, ← Int.sub_bmod_right]
  exact Int.bmod_eq_of_le (by omega) (by omega)

/-- What is left of a capacity that suffices for the item does not wrap around. -/
theorem left_of_room (hinput : input.Bounded) (hleft : ∀ c ∈ left, 0 ≤ c ∧ c < 2 ^ 63)
    (hroom : ¬ (left.any fun c => decide (c < input.length i)) = true) :
    (left.map fun c => i64 (c - input.length i)) = left.map (· - input.length i) ∧
      ∀ c ∈ left.map (· - input.length i), 0 ≤ c ∧ c < 2 ^ 63 := by
  cases left with
  | none => simp
  | some c =>
    have := hinput.length_nonneg i
    have := hleft c rfl
    have hle : input.length i ≤ c := by simpa using hroom
    have hrange : 0 ≤ c - input.length i ∧ c - input.length i < 2 ^ 63 := by omega
    refine ⟨congrArg some (i64_of_range hrange.1 hrange.2), ?_⟩
    rintro _ ⟨⟩
    exact hrange

theorem scanItems_cons (hlast : ∀ last ∈ s.lastItem, rank last < rank i) :
    scanItems (input.visit ml) s (i :: items) =
      if s.storageLeft.any fun left => decide (left < input.length i) then
        .ok { s with lastItem := some i }
      else
        let left := s.storageLeft.map fun left => i64 (left - input.length i)
        let sum := i64 (s.allTorrentsUnverifiedBytes + input.length i)
        if input.ignorePiece i.key.infoHash i.key.index ∨
            input.maxUnverifiedBytes ≠ 0 ∧ input.maxUnverifiedBytes < sum then
          scanItems (input.visit ml) { s with lastItem := some i, storageLeft := left } items
        else scanItems (input.visit ml) ⟨left, sum, some i, s.called ++ [i]⟩ items := by
  have hinorder : s.lastItem.any (fun last => ml.less (pieceOrderLess i last)) = false := by
    refine (Option.any_eq_false _ _).mpr fun last hmem => Bool.not_eq_true _ ▸ ?_
    rw [less_pieceOrderLess_iff]
    exact (hlast last hmem).asymm
  rw [scanItems, visit, hinorder, if_neg Bool.false_ne_true]
  dsimp only
  split
  · rfl
  split
  · next hignore =>
    rw [if_pos (.inl hignore)]
    rfl
  next hignore =>
  split
  · next hexcess =>
    rw [if_pos (.inr hexcess)]
    rfl
  · next hok =>
    rw [if_neg (not_or.mpr ⟨hignore, hok⟩)]
    rfl

section

variable (hsorted : items.Pairwise fun i j => rank i < rank j)
  (hlast : ∀ last ∈ s.lastItem, ∀ i ∈ items, rank last < rank i)

include hsorted hlast

theorem scanItems_called :
    Reaches (fun s' => ∃ called, s'.called = s.called ++ called ∧ called.Sublist
        (items.filter fun i => !input.ignorePiece i.key.infoHash i.key.index))
      (scanItems (input.visit ml) s items) := by
  induction items generalizing s with
  | nil => exact ⟨[], (append_nil _).symm, .slnil⟩
  | cons i items ih =>
    obtain ⟨hbefore, hsorted⟩ := pairwise_cons.mp hsorted
    have hlast' : ∀ last ∈ some i, ∀ j ∈ items, rank last < rank j := by
      rintro _ ⟨⟩
      exact hbefore
    rw [scanItems_cons fun last hmem => hlast last hmem i mem_cons_self]
    split
    · exact ⟨[], (append_nil _).symm, nil_sublist _⟩
    dsimp only
    split
    · refine (ih hsorted hlast').imp ?_
      rintro s' ⟨called, hs', h⟩
      exact ⟨called, hs', h.trans ((sublist_cons_self ..).filter _)⟩
    · next hcall =>
      refine (ih hsorted hlast').imp ?_
      rintro s' ⟨called, hs', h⟩
      refine ⟨i :: called, by simpa using hs', ?_⟩
      rw [filter_cons_of_pos (by simpa using fun h => hcall (.inl h))]
      exact h.cons_cons i

theorem scanItems_scanned (hinput : input.Bounded)
    (hleft : ∀ c ∈ s.storageLeft, 0 ≤ c ∧ c < 2 ^ 63)
    (hmax : input.maxUnverifiedBytes ≠ 0 → 0 ≤ s.allTorrentsUnverifiedBytes ∧
      s.allTorrentsUnverifiedBytes ≤ input.maxUnverifiedBytes) :
    Reaches (fun s' => ∃ called, s'.called = s.called ++ called ∧
        input.Scanned s.storageLeft s.allTorrentsUnverifiedBytes items called)
      (scanItems (input.visit ml) s items) := by
  induction items generalizing s with
  | nil => exact ⟨[], (append_nil _).symm, .nil (fun c hc => (hleft c hc).1) fun h => (hmax h).2⟩
  | cons i items ih =>
    obtain ⟨hbefore, hsorted⟩ := pairwise_cons.mp hsorted
    have hi : i ∉ items := fun hmem => (hbefore i hmem).false
    have hlast' : ∀ last ∈ some i, ∀ j ∈ items, rank last < rank j := by
      rintro _ ⟨⟩
      exact hbefore
    rw [scanItems_cons fun last hmem => hlast last hmem i mem_cons_self]
    dsimp only
    split
    · next hfull =>
      obtain ⟨c, hc, hlt⟩ := (any_eq_true _ _).mp hfull
      refine ⟨[], (append_nil _).symm, ?_⟩
      rw [hc]
      exact .stop hinput (of_decide_eq_true hlt) (hleft c hc).1 fun h => (hmax h).2
    next hroom =>
    obtain ⟨hmap, hleft'⟩ := left_of_room hinput hleft hroom
    rw [hmap]
    let passed : Scan :=
      { s with lastItem := some i, storageLeft := s.storageLeft.map (· - input.length i) }
    by_cases hignore : input.ignorePiece i.key.infoHash i.key.index = true
    · rw [if_pos (.inl hignore)]
      refine (ih (s := passed) hsorted hlast' hleft' hmax).imp ?_
      rintro s' ⟨called, hs', h⟩
      exact ⟨called, hs', h.ignore hroom hinput hi hignore⟩
    by_cases hover : input.maxUnverifiedBytes ≠ 0 ∧
        2 ^ 63 ≤ s.allTorrentsUnverifiedBytes + input.length i
    · -- the sum wraps around to a negative number, and the item is called back
      have hwrap : i64 (s.allTorrentsUnverifiedBytes + input.length i) ≤
          input.maxUnverifiedBytes := by
        have := hmax hover.1
        have := hinput.max
        have := hinput.length_lt i
        rw [i64_of_overflow hover.2 (by omega)]
        omega
      rw [if_neg (not_or.mpr ⟨hignore, fun h => hwrap.not_gt h.2⟩)]
      refine (scanItems_called hsorted hlast').imp ?_
      rintro s' ⟨called, hs', -⟩
      exact ⟨i :: called, by simpa using hs', .wrap hroom hignore hinput called hover⟩
    have hsum : input.maxUnverifiedBytes ≠ 0 → i64 (s.allTorrentsUnverifiedBytes + input.length i) =
        s.allTorrentsUnverifiedBytes + input.length i := by
      intro h
      have := not_and.mp hover h
      have := hmax h
      have := hinput.length_nonneg i
      exact i64_of_range (by omega) (by omega)
    by_cases hexcess : input.maxUnverifiedBytes ≠ 0 ∧
        input.maxUnverifiedBytes < i64 (s.allTorrentsUnverifiedBytes + input.length i)
    · have hfit := not_le.mp (not_and.mp hover hexcess.1)
      rw [if_pos (.inr hexcess)]
      refine (ih (s := passed) hsorted hlast' hleft' hmax).imp ?_
      rintro s' ⟨called, hs', h⟩
      exact ⟨called, hs', h.excess hroom hignore hinput hi hfit (hsum hexcess.1 ▸ hexcess)⟩
    · rw [if_neg (not_or.mpr ⟨hignore, hexcess⟩)]
      have hle := fun h => not_lt.mp (not_and.mp hexcess h)
      refine (ih hsorted hlast' hleft' fun h => ⟨?_, hle h⟩).imp ?_
      · have := hmax h
        have := hinput.length_nonneg i
        dsimp only
        rw [hsum h]
        omega
      rintro s' ⟨called, hs', h⟩
      refine ⟨i :: called, by simpa using hs', h.call hroom hignore hi fun hno => ⟨hsum hno, ?_⟩⟩
      exact ⟨hle hno, (hle hno).trans_lt hinput.max.2⟩

end

theorem called_mem (h : i ∈ (input.getRequestablePieces ml pro).toOption.getD []) :
    i ∈ pro.tree ∧ input.ignorePiece i.key.infoHash i.key.index = false := by
  have hscan : Reaches _
      (scanItems (input.visit ml) { storageLeft := input.capacity } pro.tree.items) :=
    scanItems_called pro.tree.sorted (by simp)
  unfold getRequestablePieces Btree.scan at h
  revert h
  refine hscan.elim (fun _ he => he.elim) ?_
  rintro s ⟨called, hs, hsub⟩ hi
  change i ∈ s.called at hi
  rw [hs] at hi
  simpa [OrderedSet.mem_items] using mem_filter.mp (hsub.subset hi)

end Input

theorem Recorded.nodup_keys {pro : PieceRequestOrder} (h : Recorded pro) :
    (pro.tree.items.map Item.key).Nodup := by
  refine List.Nodup.map_on (fun i hi j hj hij => ?_) pro.tree.nodup
  have hstate := (h i).mp hi
  rw [hij, (h j).mp hj] at hstate
  exact Item.ext hij (some.inj hstate).symm

/-- **Requestable pieces are within the budgets**: the scan calls back the right items of the order,
in its order and once for each key, exactly if there is no limit for the unverified bytes or their
sum does not wrap around. -/
theorem requestable_within_budget (ml : Multiless) (input : Input) (hinput : input.Bounded)
    (pro : PieceRequestOrder) (hpro : Recorded pro) :
    Reaches (fun called => (called.map Item.key).Nodup ∧
        input.Chosen input.capacity 0 pro.tree.items called)
      (input.getRequestablePieces ml pro) ↔
    input.maxUnverifiedBytes = 0 ∨ input.SumsFit input.capacity 0 pro.tree.items := by
  have hscan : Reaches _
      (scanItems (input.visit ml) { storageLeft := input.capacity } pro.tree.items) :=
    Input.scanItems_scanned pro.tree.sorted (by simp) hinput hinput.capacity
      fun _ => ⟨le_rfl, hinput.max.1⟩
  constructor
  · intro h
    by_contra hfit
    obtain ⟨hmax, hfit⟩ := not_or.mp hfit
    refine (hscan.and h.of_map).elim (fun _ h => h) ?_
    rintro s ⟨⟨called, hs, hscanned⟩, -, hchosen⟩
    have := hchosen.max hmax
    have := hinput.max.2
    have := hscanned.exceeded hmax hfit
    rw [hs] at *
    dsimp only [nil_append] at *
    omega
  · intro hfit
    refine Ends.map (hscan.imp ?_)
    rintro s ⟨called, hs, hscanned⟩
    have hchosen := hscanned.chosen hfit
    rw [hs]
    exact ⟨hpro.nodup_keys.sublist (hchosen.sublist.map _), hchosen⟩

/-- The two pieces of a torrent. -/
def twoPieces : PieceRequestOrder where
  tree := (OrderedSet.empty.replaceOrInsert ⟨⟨7, 0⟩, {}⟩).replaceOrInsert ⟨⟨7, 1⟩, {}⟩
  keys := fun key => if key = ⟨7, 0⟩ ∨ key = ⟨7, 1⟩ then some {} else none

/-- Torrents with pieces of one length, and no capacity. -/
def exampleInput (pieceLength maxUnverifiedBytes : ℤ) : Input :=
  { pieceLength := fun _ => pieceLength, maxUnverifiedBytes }

/-- **The limit is exceeded** when the sum wraps around. -/
theorem unverified_bytes_wrap :
    Reaches (fun called => 2 ^ 63 - 1 < (exampleInput (2 ^ 62) (2 ^ 63 - 1)).total called)
      ((exampleInput (2 ^ 62) (2 ^ 63 - 1)).getRequestablePieces .ordering twoPieces) := by
  decide

theorem requestable_within_budget_twoPieces :
    Reaches (fun called => (called.map Item.key).Nodup ∧
        (exampleInput 1 (2 ^ 63 - 1)).Chosen none 0 twoPieces.tree.items called)
      ((exampleInput 1 (2 ^ 63 - 1)).getRequestablePieces .ordering twoPieces) := by
  have hrecorded : Recorded twoPieces := by
    rintro ⟨key, state⟩
    have hempty : ⟨key, state⟩ ∉ (OrderedSet.empty : Btree) := not_mem_nil
    simp only [twoPieces, OrderedSet.mem_replaceOrInsert, rank_injective.ne_iff]
    grind
  have hinput : (exampleInput 1 (2 ^ 63 - 1)).Bounded :=
    ⟨fun _ => by norm_num [exampleInput], by simp [exampleInput], by decide⟩
  exact (requestable_within_budget .ordering _ hinput _ hrecorded).mpr (.inr (by decide))

end ReliableBT.RequestStrategy
