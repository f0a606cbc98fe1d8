import ReliableBT.Bencode.Typed

/-!
# `[]interface{}` and `map[string]interface{}`

The typed and the generic parser side by side, on a list or a dictionary: `Unmarshal` into a
`[]interface{}` or a `map[string]interface{}` on one hand, into an `interface{}` on the other.

`parseList` finds the end of a list when `parseValue` reports that there was no value. For an
`interface{}` it does not: `parseValue` then sets the variable to the invalid `reflect.Value` of a
nil interface, which panics. A dictionary ends at a key, and keys are strings.

* `agrees_iff`: the two agree on the dictionaries, and on no list.
-/

namespace ReliableBT.Bencode

open Decoder List

/-- The items are `interface{}`. -/
def anyTypes : Unit → GoType Unit := fun _ => .iface

/-- `[]interface{}` -/
def sliceOfAny : GoType Unit := ⟨.slice (), none⟩

/-- `map[string]interface{}` -/
def mapOfAny : GoType Unit := ⟨.map (), none⟩

/-- The typed container for a value. -/
def containerType : Value → GoType Unit
  | .list _ => sliceOfAny
  | _ => mapOfAny

/-- A typed container holds the elements of a generic one. -/
def SameElements (w : Val) : Value → Prop
  | .list xs => w = .list (xs.map .iface)
  | .dict es => w.entries = es.map fun e => (e.1, .iface e.2)
  | _ => False

/-- Both ways of decoding the text of a value succeed, with the same elements. -/
def Agrees (v : Value) : Prop :=
  ∃ w u, unmarshal anyTypes (containerType v) (marshal v) = .ok w ∧
    unmarshal anyTypes .iface (marshal v) = .ok (.iface u) ∧ SameElements w u

theorem tagFree_anyTypes (g : GoType Unit) (hg : ∀ fields, g.kind ≠ .struct fields) :
    TagFree anyTypes g := by
  intro g' h _ fields hk
  rcases Relation.ReflTransGen.cases_tail h with rfl | ⟨g₁, -, e, -, rfl⟩
  · exact absurd hk (hg fields)
  · cases hk

theorem not_unmarshal_of_lost {τ : Type} {T : τ → GoType τ} {g : GoType τ} {data : Str}
    (h : ∀ fuel, 2 * data.length ≤ fuel + 1 → Lost [] (parseValue T fuel g ⟨data, 0, [], 0⟩))
    (w : Val) : unmarshal T g data ≠ .ok w := by
  intro hw
  obtain ⟨d, hd, -⟩ := unmarshal_ok_iff.mp hw
  obtain ⟨e, he, -⟩ := h _ (by dsimp only; omega) _ _ (decode_ok_iff.mp hd)
  cases he

theorem outcome_iface {τ : Type} (T : τ → GoType τ) (v : Value) :
    outcome T .iface v [] = some ((none, .iface v), []) := by
  cases v <;> simp [outcome, outcomeAt, GoType.indirect, GoType.iface]

/-- **Lists of anything.** The end of the list is not found. -/
theorem outcomeItems_any (xs : List Value) (ys : List Val) :
    outcomeItems anyTypes (.iface, none) xs ys [] = none := by
  induction xs generalizing ys with
  | nil => rfl
  | cons x xs ih =>
    rw [outcomeItems, if_pos (room_none ys), outcome_iface]
    exact ih _

/-- **Maps of anything.** The entries are stored one after the other. -/
theorem outcomeEntries_any {es : List (Str × Value)} {acc : List (Str × Val)}
    (hasc : Ascending (acc ++ es.map fun e => (e.1, Val.iface e.2))) {v : Val}
    (hv : v.entries = acc) :
    ∃ v', outcomeEntries anyTypes mapOfAny es v [] = some (v', []) ∧
      v'.entries = acc ++ es.map fun e => (e.1, .iface e.2) := by
  induction es generalizing acc v with
  | nil => exact ⟨v, rfl, by simp [hv]⟩
  | cons e es ih =>
    obtain ⟨k, x⟩ := e
    have hasc' : Ascending ((acc ++ [(k, Val.iface x)]) ++ es.map fun e => (e.1, .iface e.2)) := by
      simpa using hasc
    have hlt := (ascending_snoc.mp (hasc'.sublist (sublist_append_left ..))).2
    obtain ⟨v', hout, hent⟩ := ih hasc' (v := .map (setKey k (.iface x) v.entries))
      (by rw [hv, Val.entries, setKey_last hlt])
    refine ⟨v', ?_, by simpa using hent⟩
    rw [outcomeEntries]
    dsimp only [getDictField, mapOfAny]
    erw [outcome_iface]
    exact hout

/-- **Typed and generic containers.** They agree on the dictionaries, and on no list: a
`[]interface{}` cannot be decoded at all. -/
theorem agrees_iff (v : Value) (hv : WellFormed defaultDecodeMaxStrLen v)
    (hc : (∃ xs, v = .list xs) ∨ ∃ es, v = .dict es) : Agrees v ↔ ∃ es, v = .dict es := by
  constructor
  · rintro ⟨w, u, hw, -, -⟩
    rcases hc with ⟨xs, rfl⟩ | hc
    · refine absurd hw (not_unmarshal_of_lost ?_ w)
      intro fuel hf
      have hnone : outcome anyTypes sliceOfAny (.list xs) [] = none := by
        rw [outcome]
        change ((outcomeItems anyTypes (.iface, none) xs [] []).map _).map _ = none
        rw [outcomeItems_any]
        rfl
      have hlost := parseValue_lost (m := 0) anyTypes (.list xs) hv
        (tagFree_anyTypes sliceOfAny (by simp [sliceOfAny])) .nil hnone fuel hf [] 0
      rwa [append_nil] at hlost
    · exact hc
  · rintro ⟨es, rfl⟩
    have hasc : Ascending ([] ++ es.map fun e => (e.1, Val.iface e.2)) := by
      simpa [Ascending, pairwise_map] using hv.1
    obtain ⟨v', hout, hent⟩ := outcomeEntries_any hasc (v := .zero) rfl
    have hdict : outcome anyTypes mapOfAny (.dict es) [] = some ((none, v'), []) := by
      rw [outcome]
      change ((outcomeEntries anyTypes mapOfAny es .zero []).map _).map _ = _
      rw [hout]
      rfl
    have hp := parseValue_outcome (m := 0) anyTypes (.dict es) hv hdict
      (2 * (marshal (.dict es)).length + 2) (by omega) [] 0
    rw [append_nil] at hp
    exact ⟨v', .dict es,
      unmarshal_ok_iff.mpr ⟨_, decode_ok_iff.mpr hp, rfl⟩, unmarshal_marshal anyTypes hv, hent⟩

/-- `d1:ai5ee`, whose entries are the same both ways. -/
theorem agrees_dict : Agrees (.dict [([97], .int (.int64 5))]) :=
  (agrees_iff _ (by decide) (.inr ⟨_, rfl⟩)).mpr ⟨_, rfl⟩

/-- `le`: an empty list for an `interface{}`, an error for a `[]interface{}`. -/
theorem emptyList_refused :
    unmarshal anyTypes .iface [108, 101] = .ok (.iface (.list [])) ∧
      unmarshal anyTypes sliceOfAny [108, 101] = .error .reflectValue :=
  ⟨rfl, rfl⟩

end ReliableBT.Bencode
