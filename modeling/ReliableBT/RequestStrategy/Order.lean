import ReliableBT.Lib.Multiless
import ReliableBT.Lib.OrderedSet
import ReliableBT.Lib.Outcome

/-!
# The piece request order (`request-strategy/piece-request-order.go`, `order.go`)

`PieceRequestOrder` keeps a state for each key and, in a B-tree ordered by `pieceOrderLess`, an item
for each key. The item is both what is sorted and what is stored, so a state can only be changed by
taking the item with the old state out of the tree; the tree panics if the item is not there, or is
there already when it is added (`mustValue`).

The B-tree is an `OrderedSet`. An info hash is the number its 20 bytes are, most significant byte
first, which orders the hashes as `bytes.Compare` does.

* `result_pieceOrderLess`: `pieceOrderLess` compares the ranks of items, and different items have
  different ranks.
* `order_recorded`: the tree holds, for each key that was added and not deleted, the one item with
  the state of the last call for the key.
-/

open List Option Bool Function

namespace ReliableBT.RequestStrategy

/-- `PieceRequestOrderKey` -/
structure Key where
  infoHash : Nat
  index : ℤ
  deriving DecidableEq

/-- `PieceRequestOrderState` -/
structure State where
  priority : UInt8 := 0
  isPartial : Bool := false
  availability : ℤ := 0
  deriving DecidableEq

/-- `pieceRequestOrderItem` -/
@[ext]
structure Item where
  key : Key
  state : State
  deriving DecidableEq

/-- `pieceOrderLess` -/
def pieceOrderLess (i j : Item) : Computation :=
  [compare j.state.priority.toNat i.state.priority.toNat,
    compare j.state.isPartial i.state.isPartial,
    compare i.state.availability j.state.availability,
    compare i.key.index j.key.index,
    compare i.key.infoHash j.key.infoHash]

/-- What `pieceOrderLess` compares, in the order in which it does. -/
def rank (i : Item) : Natᵒᵈ ×ₗ Boolᵒᵈ ×ₗ ℤ ×ₗ ℤ ×ₗ Nat :=
  toLex (.toDual i.state.priority.toNat, toLex (.toDual i.state.isPartial,
    toLex (i.state.availability, toLex (i.key.index, i.key.infoHash))))

/-- The panics of this package. -/
inductive Panic where
  /-- `Add` of a key that is there -/
  | keyExists (key : Key)
  /-- `key should have been added already` -/
  | keyMissing
  /-- `mustValue` -/
  | mustValue (item : Item)
  /-- `scan not in order` -/
  | scanNotInOrder
  deriving DecidableEq

/-- `ajwernerBtree` -/
abbrev Btree := OrderedSet rank

/-- `ajwernerBtree.Delete` -/
def Btree.remove (tree : Btree) (item : Item) : Except Panic Btree := do
  require (tree.find item).isSome (.mustValue item)
  return tree.delete item

/-- `ajwernerBtree.Add` -/
def Btree.add (tree : Btree) (item : Item) : Except Panic Btree := do
  require (tree.find item).isNone (.mustValue item)
  return tree.replaceOrInsert item

/-- The loop of `Scan`: `f` says whether to go on. -/
def scanItems {σ : Type} (f : σ → Item → Except Panic (σ × Bool)) :
    σ → List Item → Except Panic σ
  | s, [] => .ok s
  | s, item :: items => do
    let (s, more) ← f s item
    if more then scanItems f s items else return s

/-- `ajwernerBtree.Scan` -/
def Btree.scan {σ : Type} (tree : Btree) (f : σ → Item → Except Panic (σ × Bool)) (s : σ) :
    Except Panic σ :=
  scanItems f s tree.items

/-- `PieceRequestOrder` -/
structure PieceRequestOrder where
  tree : Btree := .empty
  keys : Key → Option State := fun _ => none

namespace PieceRequestOrder

/-- `Add` -/
def add (pro : PieceRequestOrder) (key : Key) (state : State) :
    Except Panic PieceRequestOrder := do
  require (pro.keys key = none) (.keyExists key)
  let tree ← pro.tree.add ⟨key, state⟩
  return { tree, keys := update pro.keys key (some state) }

/-- `Update` -/
def update (pro : PieceRequestOrder) (key : Key) (state : State) :
    Except Panic PieceRequestOrder :=
  match pro.keys key with
  | none => .error .keyMissing
  | some oldState =>
    if state = oldState then .ok pro
    else do
      let tree ← pro.tree.remove ⟨key, oldState⟩
      let tree ← tree.add ⟨key, state⟩
      return { tree, keys := Function.update pro.keys key (some state) }

/-- `Delete`: without a state the zero state is looked for. -/
def delete (pro : PieceRequestOrder) (key : Key) : Except Panic PieceRequestOrder := do
  let tree ← pro.tree.remove ⟨key, (pro.keys key).getD {}⟩
  return { tree, keys := Function.update pro.keys key none }

end PieceRequestOrder

/-- A call. -/
inductive Call where
  | add (key : Key) (state : State)
  | update (key : Key) (state : State)
  | delete (key : Key)

/-- What a call does. -/
def step (pro : PieceRequestOrder) : Call → Except Panic PieceRequestOrder
  | .add key state => pro.add key state
  | .update key state => pro.update key state
  | .delete key => pro.delete key

/-- The states of the keys after a call. -/
def recorded (states : Key → Option State) : Call → Key → Option State
  | .add key state => update states key (some state)
  | .update key state => update states key (some state)
  | .delete key => update states key none

/-- The state of each key after the calls: that of the last call for the key. -/
def lastStates (calls : List Call) : Key → Option State := calls.foldl recorded fun _ => none

/-- New keys are added, and keys that are there are updated and deleted. -/
def Proper (states : Key → Option State) : Call → Prop
  | .add key _ => states key = none
  | .update key _ => states key ≠ none
  | .delete key => states key ≠ none

instance (states : Key → Option State) : ∀ call, Decidable (Proper states call)
  | .add _ _ => inferInstanceAs (Decidable (_ = _))
  | .update _ _ => inferInstanceAs (Decidable (¬ _ = _))
  | .delete _ => inferInstanceAs (Decidable (¬ _ = _))

/-- Every call is proper, after the calls before it. -/
def ProperCalls : (Key → Option State) → List Call → Prop
  | _, [] => True
  | states, call :: calls => Proper states call ∧ ProperCalls (recorded states call) calls

instance : ∀ (states : Key → Option State) (calls : List Call), Decidable (ProperCalls states calls)
  | _, [] => .isTrue trivial
  | states, call :: calls =>
    have := instDecidableProperCalls (recorded states call) calls
    inferInstanceAs (Decidable (_ ∧ _))

variable {i j : Item} {tree : Btree} {pro : PieceRequestOrder} {key : Key} {state : State}
  {ml : Multiless}

/-! ## The order of items -/

theorem result_pieceOrderLess (i j : Item) :
    (pieceOrderLess i j).result = compare (rank i) (rank j) := by
  simp only [pieceOrderLess, Computation.result_cons, Computation.result_nil, Ordering.then_eq]
  rfl

theorem less_pieceOrderLess_iff : ml.less (pieceOrderLess i j) = true ↔ rank i < rank j := by
  rw [Multiless.less_eq, beq_iff_eq, result_pieceOrderLess, compare_lt_iff_lt]

theorem rank_injective : Function.Injective rank := by
  rintro ⟨⟨ih, n⟩, p, b, a⟩ ⟨⟨ih', n'⟩, p', b', a'⟩ h
  simp only [rank, EmbeddingLike.apply_eq_iff_eq, Prod.mk.injEq, UInt8.toNat_inj] at h
  obtain ⟨rfl, rfl, rfl, rfl, rfl⟩ := h
  rfl

/-! ## The tree -/

theorem isSome_find : (tree.find i).isSome ↔ i ∈ tree := by
  rw [OrderedSet.find, find?_isSome]
  simp [rank_injective.eq_iff, OrderedSet.mem_items]

theorem Btree.remove_ends (h : i ∈ tree) :
    Reaches (fun tree' : Btree => ∀ j, j ∈ tree' ↔ j ∈ tree ∧ j ≠ i) (tree.remove i) := by
  refine Ends.require (fun _ => ?_) (absurd (isSome_find.mpr h))
  intro j
  rw [OrderedSet.mem_delete, rank_injective.ne_iff]

theorem Btree.add_ends (h : i ∉ tree) :
    Reaches (fun tree' : Btree => ∀ j, j ∈ tree' ↔ j = i ∨ j ∈ tree) (tree.add i) := by
  have hnone : (tree.find i).isNone := by
    rw [← not_isSome, not_eq_true', ← not_eq_true, isSome_find]
    exact h
  refine Ends.require (fun _ => ?_) (absurd hnone)
  intro j
  rw [OrderedSet.mem_replaceOrInsert, rank_injective.ne_iff]
  exact or_congr_right (and_iff_left_of_imp fun hj hji => h (hji ▸ hj))

theorem scan_collect (tree : Btree) :
    tree.scan (fun visited i => .ok (visited ++ [i], true)) [] = .ok tree.items := by
  have hloop : ∀ items visited : List Item,
      scanItems (fun visited i => .ok (visited ++ [i], true)) visited items =
        .ok (visited ++ items) := by
    intro items
    induction items with
    | nil => exact fun visited => by rw [scanItems, append_nil]
    | cons i items ih =>
      intro visited
      exact (ih (visited ++ [i])).trans (by rw [append_assoc, singleton_append])
  exact hloop tree.items []

/-! ## The items and the recorded states -/

/-- The tree holds the keys with their states, and nothing else. -/
def Recorded (pro : PieceRequestOrder) : Prop :=
  ∀ i, i ∈ pro.tree ↔ pro.keys i.key = some i.state

section

variable (h : Recorded pro)
include h

theorem Recorded.added (hkey : pro.keys key = none) :
    Reaches (fun tree => Recorded ⟨tree, update pro.keys key (some state)⟩)
      (pro.tree.add ⟨key, state⟩) := by
  have hnew : (⟨key, state⟩ : Item) ∉ pro.tree := by
    rw [h, hkey]
    exact nofun
  refine (Btree.add_ends hnew).imp fun tree' htree j => ?_
  rw [htree, h]
  by_cases hj : j.key = key
  · subst hj
    simp [hkey, Item.ext_iff, eq_comm]
  · simp [hj, Item.ext_iff]

theorem Recorded.removed (hkey : pro.keys key = some state) :
    Reaches (fun tree => Recorded ⟨tree, update pro.keys key none⟩)
      (pro.tree.remove ⟨key, state⟩) := by
  refine (Btree.remove_ends ((h ⟨key, state⟩).mpr hkey)).imp fun tree' htree j => ?_
  rw [htree, h]
  by_cases hj : j.key = key
  · subst hj
    simp [hkey, Item.ext_iff, eq_comm]
  · simp [hj, Item.ext_iff]

theorem Recorded.update (hkey : pro.keys key ≠ none) :
    Reaches (fun pro' => Recorded pro' ∧ pro'.keys = Function.update pro.keys key (some state))
      (pro.update key state) := by
  unfold PieceRequestOrder.update
  split
  · next hnone => exact absurd hnone hkey
  next oldState hold =>
  split
  · next hsame =>
    subst hsame
    exact ⟨h, (update_eq_self_iff.mpr hold.symm).symm⟩
  refine (h.removed hold).bind fun tree' h' => ?_
  refine (h'.added (update_self ..)).bind fun tree'' h'' => ?_
  rw [Function.update_idem] at h''
  exact ⟨h'', rfl⟩

theorem Recorded.step (call : Call) (hcall : Proper pro.keys call) :
    Reaches (fun pro' => Recorded pro' ∧ pro'.keys = recorded pro.keys call) (step pro call) := by
  cases call with
  | add key state =>
    refine Ends.require (fun _ => ?_) (absurd hcall)
    exact (h.added hcall).bind fun tree' h' => ⟨h', rfl⟩
  | update key state => exact h.update hcall
  | delete key =>
    obtain ⟨state, hstate⟩ := ne_none_iff_exists'.mp hcall
    change Reaches _ (pro.delete key)
    rw [PieceRequestOrder.delete, hstate]
    exact (h.removed hstate).bind fun tree' h' => ⟨h', rfl⟩

theorem Recorded.run {calls : List Call} (hcalls : ProperCalls pro.keys calls) :
    Reaches (fun pro' => Recorded pro' ∧ pro'.keys = calls.foldl recorded pro.keys)
      (run RequestStrategy.step pro calls) := by
  induction calls generalizing pro with
  | nil => exact ⟨h, rfl⟩
  | cons call calls ih =>
    refine (h.step call hcalls.1).bind fun pro' hpro' => ?_
    obtain ⟨h', hkeys⟩ := hpro'
    rw [foldl_cons, ← hkeys]
    exact ih h' (hkeys ▸ hcalls.2)

theorem Recorded.items_of_key (key : Key) :
    (pro.tree.items.filter fun i => decide (i.key = key)) =
      ((pro.keys key).map (Item.mk key)).toList := by
  cases hkey : pro.keys key with
  | none =>
    refine filter_eq_nil_iff.mpr fun i hi => ?_
    intro heq
    have hstate := (h i).mp hi
    rw [of_decide_eq_true heq, hkey] at hstate
    exact nomatch hstate
  | some state =>
    refine OrderedSet.filter_eq_singleton.mpr fun i => ?_
    rw [h i, decide_eq_true_eq, Item.ext_iff]
    constructor
    · rintro ⟨hstate, rfl⟩
      exact ⟨rfl, some.inj (hstate.symm.trans hkey)⟩
    · rintro ⟨rfl, rfl⟩
      exact ⟨hkey, rfl⟩

end

/-- The items of a key are the key with its state, and a scan sees all items in strictly ascending
order. -/
def OneItemPerKey (ml : Multiless) (states : Key → Option State) (pro : PieceRequestOrder) : Prop :=
  (∀ key, (pro.tree.items.filter fun i => decide (i.key = key)) =
    ((states key).map (Item.mk key)).toList) ∧
  Reaches (fun visited : List Item =>
      (∀ i, i ∈ visited ↔ states i.key = some i.state) ∧
        visited.Pairwise fun i j => ml.less (pieceOrderLess i j) = true)
    (pro.tree.scan (fun visited i => .ok (visited ++ [i], true)) [])

/-- **One item for each key**, with the state of the last call for it, whatever keys are added,
updated and deleted, and no panic. The order of the items is a strict total order of items with
different keys. -/
theorem order_recorded (ml : Multiless) (calls : List Call)
    (hcalls : ProperCalls (fun _ => none) calls) :
    Reaches (OneItemPerKey ml (lastStates calls)) (run step {} calls) ∧
    (∀ i, ml.less (pieceOrderLess i i) = false) ∧
    (∀ i j k, ml.less (pieceOrderLess i j) = true → ml.less (pieceOrderLess j k) = true →
      ml.less (pieceOrderLess i k) = true) ∧
    ∀ i j : Item, i.key ≠ j.key →
      ml.less (pieceOrderLess i j) = true ∨ ml.less (pieceOrderLess j i) = true := by
  refine ⟨?_, fun i => ?_, fun i j k => ?_, fun i j hij => ?_⟩
  · have hempty : Recorded {} := fun i => iff_of_false not_mem_nil nofun
    refine (hempty.run hcalls).imp fun pro ⟨h, hkeys⟩ => ?_
    rw [lastStates, ← hkeys]
    refine ⟨h.items_of_key, ?_⟩
    rw [scan_collect]
    exact ⟨h, pro.tree.sorted.imp less_pieceOrderLess_iff.mpr⟩
  · rw [← not_eq_true, less_pieceOrderLess_iff]
    exact lt_irrefl _
  · simp only [less_pieceOrderLess_iff]
    exact lt_trans
  · simp only [less_pieceOrderLess_iff]
    exact lt_or_gt_of_ne fun h => hij (congrArg Item.key (rank_injective h))

/-- A piece is added and becomes more wanted than another. -/
def exampleCalls : List Call :=
  [.add ⟨7, 0⟩ {}, .add ⟨7, 1⟩ {}, .update ⟨7, 1⟩ { priority := 1 }, .delete ⟨7, 0⟩]

theorem order_recorded_exampleCalls :
    Reaches (OneItemPerKey .ordering (lastStates exampleCalls)) (run step {} exampleCalls) ∧
      lastStates exampleCalls ⟨7, 0⟩ = none ∧
      lastStates exampleCalls ⟨7, 1⟩ = some { priority := 1 } :=
  ⟨(order_recorded .ordering exampleCalls (by decide)).1, by decide, by decide⟩

end ReliableBT.RequestStrategy
