import Mathlib

/-!
# Maps with several values for a key

A multimap is a map from keys to lists of values. Adding a value puts it behind those that the key
has. As a list of pairs it is sorted by the keys, and the values of a key keep their order.

* `valuesAt`: the values of a key, none if the key is not there.
* `Full`: every key that is there has values. Such maps are equal if they have the same values
  (`ext_valuesAt`). What is built by adding is one.
* `valuesAt_addAll`, `valuesAt_pairs`: adding the pairs of a map gives its values back.
-/

open List Function

namespace ReliableBT

/-! ## Lists of keys with values -/

section

variable {κ ν : Type} [DecidableEq κ]

theorem filter_flatMap_of_ne {l : List (κ × List ν)} {k : κ} (h : ∀ e ∈ l, e.1 ≠ k) :
    (l.flatMap fun e => e.2.map (e.1, ·)).filter (·.1 = k) = [] := by
  refine filter_eq_nil_iff.mpr fun p hp => ?_
  obtain ⟨e, he, hpe⟩ := mem_flatMap.mp hp
  obtain ⟨v, -, rfl⟩ := mem_map.mp hpe
  simpa using h e he

theorem filter_flatMap_of_mem {l : List (κ × List ν)} (hl : l.Pairwise fun a b => a.1 ≠ b.1) {k : κ}
    {vs : List ν} (h : (k, vs) ∈ l) :
    (l.flatMap fun e => e.2.map (e.1, ·)).filter (·.1 = k) = vs.map (k, ·) := by
  induction l with
  | nil => cases h
  | cons e l ih =>
    obtain ⟨hne, hl⟩ := pairwise_cons.mp hl
    rw [flatMap_cons, filter_append]
    rcases mem_cons.mp h with rfl | hmem
    · rw [filter_flatMap_of_ne fun e he => (hne e he).symm, append_nil]
      exact filter_eq_self.mpr fun p hp => by
        obtain ⟨v, -, rfl⟩ := mem_map.mp hp
        exact decide_eq_true rfl
    · have hhead : (e.2.map (e.1, ·)).filter (·.1 = k) = [] := by
        refine filter_eq_nil_iff.mpr fun p hp => ?_
        obtain ⟨v, -, rfl⟩ := mem_map.mp hp
        simpa using hne _ hmem
      rw [hhead, ih hl hmem, nil_append]

theorem filter_map_key (key k : κ) (vs : List ν) :
    ((vs.map (key, ·)).filter (·.1 = k)).map (·.2) = if key = k then vs else [] := by
  rw [filter_map, map_map]
  split
  · next heq => simp [comp_def, heq]
  · next hne => simp [comp_def, hne]

end

/-! ## Multimaps -/

/-- Keys, each with a list of values. -/
abbrev Multimap (κ ν : Type) [Ord κ] := Std.ExtTreeMap κ (List ν)

namespace Multimap

variable {κ ν : Type} [Ord κ] [Std.TransOrd κ]

def valuesAt (m : Multimap κ ν) (k : κ) : List ν := m.getD k []

/-- The value goes behind those that the key has. -/
def add (m : Multimap κ ν) (k : κ) (v : ν) : Multimap κ ν := m.insert k (valuesAt m k ++ [v])

def addAll (m : Multimap κ ν) (ps : List (κ × ν)) : Multimap κ ν :=
  ps.foldl (fun m p => add m p.1 p.2) m

/-- The keys with their values, sorted by the keys. -/
def pairs (m : Multimap κ ν) : List (κ × ν) := m.toList.flatMap fun e => e.2.map (e.1, ·)

/-- No key is there without a value. -/
def Full (m : Multimap κ ν) : Prop := ∀ k : κ, m[k]? ≠ some []

variable {m m' : Multimap κ ν}

theorem valuesAt_eq (m : Multimap κ ν) (k : κ) : valuesAt m k = m[k]?.getD [] :=
  Std.ExtTreeMap.getD_eq_getD_getElem?

theorem full_empty : Full (∅ : Multimap κ ν) := by
  intro k h
  rw [Std.ExtTreeMap.getElem?_empty] at h
  cases h

theorem Full.erase (h : Full m) (k : κ) : Full (m.erase k) := by
  intro k'
  rw [Std.ExtTreeMap.getElem?_erase]
  split
  · exact nofun
  · exact h k'

theorem Full.insert (h : Full m) (k : κ) {vs : List ν} (hvs : vs ≠ []) : Full (m.insert k vs) := by
  intro k'
  rw [Std.ExtTreeMap.getElem?_insert]
  split
  · exact fun heq => hvs (Option.some.inj heq)
  · exact h k'

theorem Full.addAll (h : Full m) (ps : List (κ × ν)) : Full (addAll m ps) := by
  induction ps generalizing m with
  | nil => exact h
  | cons p ps ih => exact ih (h.insert p.1 (append_ne_nil_of_right_ne_nil _ nofun))

theorem Full.getElem? (h : Full m) (k : κ) :
    m[k]? = if (valuesAt m k).isEmpty then none else some (valuesAt m k) := by
  rw [valuesAt_eq]
  have hk := h k
  cases hm : m[k]? with
  | none => rfl
  | some vs =>
    rw [hm] at hk
    cases vs with
    | nil => exact absurd rfl hk
    | cons v vs => rfl

variable [Std.LawfulEqOrd κ]

theorem ext_valuesAt (h : Full m) (h' : Full m') (heq : ∀ k, valuesAt m k = valuesAt m' k) :
    m = m' := by
  refine Std.ExtTreeMap.ext_getElem? fun k => ?_
  rw [h.getElem? k, h'.getElem? k, heq k]

variable [DecidableEq κ]

theorem valuesAt_insert (m : Multimap κ ν) (k k' : κ) (vs : List ν) :
    valuesAt (m.insert k vs) k' = if k = k' then vs else valuesAt m k' := by
  rw [valuesAt, Std.ExtTreeMap.getD_insert]
  simp only [Std.LawfulEqOrd.compare_eq_iff_eq]
  rfl

theorem valuesAt_erase (m : Multimap κ ν) (k k' : κ) :
    valuesAt (m.erase k) k' = if k = k' then [] else valuesAt m k' := by
  rw [valuesAt, Std.ExtTreeMap.getD_erase]
  simp only [Std.LawfulEqOrd.compare_eq_iff_eq]
  rfl

theorem valuesAt_addAll (m : Multimap κ ν) (ps : List (κ × ν)) (k : κ) :
    valuesAt (addAll m ps) k = valuesAt m k ++ (ps.filter (·.1 = k)).map (·.2) := by
  induction ps generalizing m with
  | nil => exact (append_nil _).symm
  | cons p ps ih =>
    refine (ih (add m p.1 p.2)).trans ?_
    rw [add, valuesAt_insert, filter_cons]
    by_cases hk : p.1 = k
    · subst hk
      rw [if_pos rfl, if_pos (by simp), append_assoc]
      rfl
    · rw [if_neg hk, if_neg (by simpa using hk)]

theorem valuesAt_pairs (m : Multimap κ ν) (k : κ) :
    ((pairs m).filter (·.1 = k)).map (·.2) = valuesAt m k := by
  rw [pairs, valuesAt_eq]
  cases hm : m[k]? with
  | none =>
    have hne : ∀ e ∈ m.toList, e.1 ≠ k := by
      rintro ⟨k', vs⟩ he rfl
      rw [Std.ExtTreeMap.mem_toList_iff_getElem?_eq_some, hm] at he
      cases he
    rw [filter_flatMap_of_ne hne]
    rfl
  | some vs =>
    have hdistinct : m.toList.Pairwise fun a b => a.1 ≠ b.1 := by
      refine Std.ExtTreeMap.distinct_keys_toList.imp fun hcmp heq => hcmp ?_
      rw [heq]
      exact Std.ReflCmp.compare_self
    rw [filter_flatMap_of_mem hdistinct (Std.ExtTreeMap.mem_toList_iff_getElem?_eq_some.mpr hm),
      map_map]
    exact map_id vs

end Multimap

end ReliableBT
