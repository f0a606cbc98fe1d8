import Mathlib

/-!
# Ordered sets: items kept in ascending order of a key

An `OrderedSet key` holds items in strictly ascending order of `key`, so it has at most one item of
each key; this is what a B-tree of items with an order of their own is. Items with different keys
are different members, whatever else they have in common.

* `mem_replaceOrInsert`, `mem_delete`: the members after an insertion and a deletion.
* `filter_eq_singleton`: when the members that satisfy a test are one item.
-/

open List

namespace ReliableBT

variable {ι κ : Type} [LinearOrder κ]

/-- Items in strictly ascending order of their keys. -/
structure OrderedSet (key : ι → κ) where
  items : List ι
  sorted : items.Pairwise fun a b => key a < key b

namespace OrderedSet

variable {key : ι → κ}

instance : Membership ι (OrderedSet key) := ⟨fun s a => a ∈ s.items⟩

variable {s : OrderedSet key} {a b : ι}

theorem mem_items : a ∈ s.items ↔ a ∈ s := Iff.rfl

/-- No members. -/
def empty : OrderedSet key := ⟨[], List.Pairwise.nil⟩

/-- The member with the key of `a`. -/
def find (s : OrderedSet key) (a : ι) : Option ι :=
  s.items.find? fun b => decide (key b = key a)

/-- Takes out the member with the key of `a`. -/
def delete (s : OrderedSet key) (a : ι) : OrderedSet key where
  items := s.items.filter fun b => decide (key b ≠ key a)
  sorted := s.sorted.filter _

/-- Adds `a`, in the place of the member with its key if there is one. -/
def replaceOrInsert (s : OrderedSet key) (a : ι) : OrderedSet key where
  items := (s.items.filter fun b => decide (key b < key a)) ++
    a :: s.items.filter fun b => decide (key a < key b)
  sorted := by
    refine pairwise_append.mpr ⟨s.sorted.filter _, ?_, ?_⟩
    · refine pairwise_cons.mpr ⟨fun b hb => ?_, s.sorted.filter _⟩
      simpa using (mem_filter.mp hb).2
    · intro b hb c hc
      have hba : key b < key a := by simpa using (mem_filter.mp hb).2
      rcases mem_cons.mp hc with rfl | hc
      · exact hba
      · have hac : key a < key c := by simpa using (mem_filter.mp hc).2
        exact hba.trans hac

theorem nodup (s : OrderedSet key) : s.items.Nodup :=
  s.sorted.imp fun hlt heq => absurd (congrArg key heq) hlt.ne

@[simp] theorem mem_delete : b ∈ s.delete a ↔ b ∈ s ∧ key b ≠ key a := by
  change b ∈ s.items.filter _ ↔ _
  rw [mem_filter, decide_eq_true_eq, mem_items]

@[simp] theorem mem_replaceOrInsert : b ∈ s.replaceOrInsert a ↔ b = a ∨ b ∈ s ∧ key b ≠ key a := by
  change b ∈ s.items.filter _ ++ a :: s.items.filter _ ↔ _
  rw [mem_append, mem_cons, mem_filter, mem_filter]
  simp only [decide_eq_true_eq, mem_items]
  constructor
  · rintro (⟨hb, hlt⟩ | rfl | ⟨hb, hlt⟩)
    · exact .inr ⟨hb, hlt.ne⟩
    · exact .inl rfl
    · exact .inr ⟨hb, hlt.ne'⟩
  · rintro (rfl | ⟨hb, hne⟩)
    · exact .inr (.inl rfl)
    · rcases lt_or_gt_of_ne hne with hlt | hlt
      · exact .inl ⟨hb, hlt⟩
      · exact .inr (.inr ⟨hb, hlt⟩)

theorem filter_eq_singleton {f : ι → Bool} :
    s.items.filter f = [a] ↔ ∀ b, b ∈ s ∧ f b = true ↔ b = a := by
  constructor
  · intro h b
    rw [← mem_items, ← mem_filter, h, mem_singleton]
  · intro h
    refine perm_singleton.mp ?_
    refine (perm_ext_iff_of_nodup (s.nodup.filter f) (nodup_singleton a)).mpr fun b => ?_
    rw [mem_filter, mem_singleton, mem_items, h b]

end OrderedSet

end ReliableBT
