import ReliableBT.Bencode.Tokens
import ReliableBT.Bencode.Unmarshal

/-!
# The canonical form of bencode

`parseValueInterface` is the inverse of `marshal`: it accepts the text of a well-formed value and
nothing else.

* `parseValueInterface_marshal`: the text of a well-formed value is read back, whatever follows it,
  and leaves the buffer empty.
* `sound`: what is read is the text of the value that is returned, and this value is well-formed.
* `unmarshal_iface_canonical`: `Unmarshal` into an `interface{}` and `Marshal` are inverse.
-/

open List Except Prod

namespace ReliableBT.Bencode

open Decimal

namespace Decoder

/-! ## Reading back -/

variable {buf : Str} {m : Int64} {fuel : ℕ}

theorem ok_offset {α : Type} {a : α} {r : Str} {o o' : ℕ} (h : o = o') :
    (.ok (a, ⟨r, o, buf, m⟩) : Except Err (α × Decoder)) = .ok (a, ⟨r, o', buf, m⟩) := by
  rw [h]

theorem parseValueInterface_cons (fuel : ℕ) (b : UInt8) (r : Str) (o : ℕ) (buf : Str) (m : Int64) :
    parseValueInterface (fuel + 1) ⟨b :: r, o, buf, m⟩ =
      if b = 101 then .ok (none, ⟨r, o + 1, buf, m⟩)
      else if b = 100 then
        match parseDictInterface fuel [] none ⟨r, o + 1, buf, m⟩ with
        | .error e => .error e
        | .ok (es, d) => .ok (some (.dict es), d)
      else if b = 108 then
        match parseListInterface fuel [] ⟨r, o + 1, buf, m⟩ with
        | .error e => .error e
        | .ok (xs, d) => .ok (some (.list xs), d)
      else if b = 105 then
        match parseIntInterface ⟨r, o + 1, buf, m⟩ with
        | .error e => .error e
        | .ok (n, d) => .ok (some (.int n), d)
      else if isDigit b then
        match parseStringInterface ⟨r, o + 1, buf ++ [b], m⟩ with
        | .error e => .error e
        | .ok (s, d) => .ok (some (.str s), d)
      else .error (.syntaxError o (.unknownValueType b)) := by
  rw [parseValueInterface]
  rfl

theorem parseValueInterface_end (fuel : ℕ) (r : Str) (o : ℕ) (buf : Str) (m : Int64) :
    parseValueInterface (fuel + 1) ⟨101 :: r, o, buf, m⟩ = .ok (none, ⟨r, o + 1, buf, m⟩) := by
  rw [parseValueInterface_cons, if_pos rfl]

theorem parseValueInterface_str {s : Str} (hs : s.length ≤ strLimit m) (fuel : ℕ) (r : Str)
    (o : ℕ) :
    parseValueInterface (fuel + 1) ⟨reflectString s ++ r, o, [], m⟩ =
      .ok (some (.str s), ⟨r, o + (reflectString s).length, [], m⟩) := by
  obtain ⟨b, u, hbu, hb⟩ := formatNat_cons s.length
  have hne : ∀ c : UInt8, ¬ isDigit c → b ≠ c := fun c hc h => hc (h ▸ hb)
  have htext : reflectString s = b :: (u ++ 58 :: s) := by rw [reflectString, hbu]; rfl
  rw [htext, cons_append, parseValueInterface_cons, if_neg (hne 101 (by decide)),
    if_neg (hne 100 (by decide)), if_neg (hne 108 (by decide)), if_neg (hne 105 (by decide)),
    if_pos hb, nil_append, append_assoc, cons_append,
    parseStringInterface_reflectString hbu r _ hs]
  exact ok_offset (by simp; omega)

/-- **Lists.** If the items are read back, so is the list. -/
theorem parseListInterface_marshal {xs : List Value}
    (h : ∀ x ∈ xs, ∀ fuel, 2 * (marshal x).length ≤ fuel + 1 → ∀ r o,
      parseValueInterface fuel ⟨marshal x ++ r, o, buf, m⟩ =
        .ok (some x, ⟨r, o + (marshal x).length, buf, m⟩)) (ys : List Value) (fuel : ℕ)
    (hf : 2 * (marshalItems xs).length + 2 ≤ fuel) (r : Str) (o : ℕ) :
    parseListInterface fuel ys ⟨marshalItems xs ++ 101 :: r, o, buf, m⟩ =
      .ok (ys ++ xs, ⟨r, o + (marshalItems xs).length + 1, buf, m⟩) := by
  induction xs generalizing ys fuel o with
  | nil =>
    obtain ⟨fuel, rfl⟩ : ∃ k, fuel = k + 2 := ⟨fuel - 2, by omega⟩
    simp only [marshalItems, nil_append, parseListInterface, parseValueInterface_end,
      append_nil, length_nil, Nat.add_zero]
  | cons x xs ih =>
    obtain ⟨fuel, rfl⟩ : ∃ k, fuel = k + 1 := ⟨fuel - 1, by omega⟩
    have hpos := length_marshal_pos x
    simp only [marshalItems, length_append] at hf ⊢
    rw [parseListInterface, append_assoc, h x (mem_cons_self ..) fuel (by omega)]
    simp only
    rw [ih (fun y hy => h y (mem_cons_of_mem _ hy)) _ _ (by omega)]
    rw [append_assoc, singleton_append]
    exact ok_offset (by omega)

/-- **Dictionaries.** If the values are read back and the keys ascend, above those there are
already, so is the dictionary. -/
theorem parseDictInterface_marshal {es : List (Str × Value)}
    (h : ∀ e ∈ es, ∀ fuel, 2 * (marshal e.2).length ≤ fuel + 1 → ∀ r o,
      parseValueInterface fuel ⟨marshal e.2 ++ r, o, [], m⟩ =
        .ok (some e.2, ⟨r, o + (marshal e.2).length, [], m⟩))
    (hk : ∀ e ∈ es, e.1.length ≤ strLimit m) (dict : List (Str × Value))
    (hasc : Ascending (dict ++ es)) (last : Option Str) (hlast : last = dict.getLast?.map fst)
    (fuel : ℕ) (hf : 2 * (marshalEntries es).length + 2 ≤ fuel) (r : Str) (o : ℕ) :
    parseDictInterface fuel dict last ⟨marshalEntries es ++ 101 :: r, o, [], m⟩ =
      .ok (dict ++ es, ⟨r, o + (marshalEntries es).length + 1, [], m⟩) := by
  induction es generalizing dict last fuel o with
  | nil =>
    obtain ⟨fuel, rfl⟩ : ∃ k, fuel = k + 2 := ⟨fuel - 2, by omega⟩
    simp only [marshalEntries, nil_append, parseDictInterface, parseValueInterface_end,
      append_nil, length_nil, Nat.add_zero]
  | cons e es ih =>
    obtain ⟨k, x⟩ := e
    have hpos := length_marshal_pos x
    simp only [marshalEntries, length_append] at hf ⊢
    obtain ⟨fuel, rfl⟩ : ∃ j, fuel = j + 2 := ⟨fuel - 2, by omega⟩
    have hasc' : Ascending ((dict ++ [(k, x)]) ++ es) := by simpa using hasc
    have hsnoc : Ascending (dict ++ [(k, x)]) := hasc'.sublist (sublist_append_left ..)
    have hlt := (ascending_snoc.mp hsnoc).2
    have hsorted : last.any (fun last => decide (ord k ≤ ord last)) = false := by
      cases hl : dict.getLast? with
      | none => simp [hlast, hl]
      | some e =>
        have : ord e.1 < ord k := hlt e (mem_of_getLast? hl)
        simp [hlast, hl, this]
    rw [parseDictInterface, append_assoc, append_assoc,
      parseValueInterface_str (hk _ (mem_cons_self ..))]
    simp only [hsorted, Bool.false_eq_true, if_false]
    rw [h _ (mem_cons_self ..) (fuel + 1) (by dsimp only; omega)]
    simp only [setKey_last hlt]
    rw [ih (fun e he => h e (mem_cons_of_mem _ he))
      (fun e he => hk e (mem_cons_of_mem _ he)) _ hasc' _ (by simp) _ (by omega)]
    rw [append_assoc, singleton_append]
    exact ok_offset (by omega)

theorem parseValueInterface_list (fuel : ℕ) (r : Str) (o : ℕ) (buf : Str) (m : Int64) :
    parseValueInterface (fuel + 1) ⟨108 :: r, o, buf, m⟩ =
      match parseListInterface fuel [] ⟨r, o + 1, buf, m⟩ with
      | .error e => .error e
      | .ok (xs, d) => .ok (some (.list xs), d) := by
  rw [parseValueInterface_cons, if_neg (by decide), if_neg (by decide), if_pos rfl]

theorem parseValueInterface_dict (fuel : ℕ) (r : Str) (o : ℕ) (buf : Str) (m : Int64) :
    parseValueInterface (fuel + 1) ⟨100 :: r, o, buf, m⟩ =
      match parseDictInterface fuel [] none ⟨r, o + 1, buf, m⟩ with
      | .error e => .error e
      | .ok (es, d) => .ok (some (.dict es), d) := by
  rw [parseValueInterface_cons, if_neg (by decide), if_pos rfl]

theorem parseValueInterface_int (fuel : ℕ) (r : Str) (o : ℕ) (buf : Str) (m : Int64) :
    parseValueInterface (fuel + 1) ⟨105 :: r, o, buf, m⟩ =
      match parseIntInterface ⟨r, o + 1, buf, m⟩ with
      | .error e => .error e
      | .ok (n, d) => .ok (some (.int n), d) := by
  rw [parseValueInterface_cons, if_neg (by decide), if_neg (by decide), if_neg (by decide),
    if_pos rfl]

/-- **Reading back.** The text of a well-formed value is read as this value, and nothing after it
is touched. A buffer that is not empty does no harm if the value is made of empty containers. -/
theorem parseValueInterface_marshal (v : Value) (hv : WellFormed (strLimit m) v)
    (hb : buf = [] ∨ hollow v) (fuel : ℕ) (hf : 2 * (marshal v).length ≤ fuel + 1) (r : Str)
    (o : ℕ) :
    parseValueInterface fuel ⟨marshal v ++ r, o, buf, m⟩ =
      .ok (some v, ⟨r, o + (marshal v).length, buf, m⟩) := by
  induction v generalizing fuel r o with
  | int n =>
    obtain rfl := hb.resolve_right (by simp [hollow])
    obtain ⟨fuel, rfl⟩ : ∃ k, fuel = k + 1 := ⟨fuel - 1, by simp [marshal] at hf; omega⟩
    rw [marshal, cons_append, parseValueInterface_int, append_assoc,
      singleton_append, parseIntInterface_formatInt]
    exact ok_offset (by simp; omega)
  | str s =>
    obtain rfl := hb.resolve_right (by simp [hollow])
    obtain ⟨fuel, rfl⟩ : ∃ k, fuel = k + 1 :=
      ⟨fuel - 1, by have := length_marshal_pos (.str s); omega⟩
    exact parseValueInterface_str hv fuel r o
  | list xs ih =>
    rw [marshal, length_cons, length_append, length_singleton] at hf
    obtain ⟨fuel, rfl⟩ : ∃ k, fuel = k + 1 := ⟨fuel - 1, by omega⟩
    have hxs := wellFormedItems_iff.mp hv
    have hbs : ∀ x ∈ xs, buf = [] ∨ hollow x := fun x hx =>
      hb.imp_right fun h => hollowItems_iff.mp h x hx
    rw [marshal, cons_append, parseValueInterface_list, append_assoc,
      singleton_append, parseListInterface_marshal
        (fun x hx fuel hf r o => ih x hx (hxs x hx) (hbs x hx) fuel hf r o) _ _ (by omega)]
    exact ok_offset (by simp; omega)
  | dict es ih =>
    rw [marshal, length_cons, length_append, length_singleton] at hf
    obtain ⟨fuel, rfl⟩ : ∃ k, fuel = k + 2 := ⟨fuel - 2, by omega⟩
    rw [marshal, cons_append, parseValueInterface_dict, append_assoc, singleton_append]
    rcases hb with rfl | hb
    · have hes := wellFormedEntries_iff.mp hv.2
      rw [parseDictInterface_marshal
        (fun e he fuel hf r o => ih e he (hes e he).2 (.inl rfl) fuel hf r o)
        (fun e he => (hes e he).1) [] (by simpa using hv.1) none rfl _ (by omega)]
      exact ok_offset (by simp; omega)
    · obtain rfl : es = [] := by simpa [hollow] using hb
      simp only [marshalEntries, nil_append]
      obtain ⟨fuel, rfl⟩ : ∃ k, fuel = k + 1 := ⟨fuel - 1, by simp [marshalEntries] at hf; omega⟩
      rw [parseDictInterface, parseValueInterface_end]
      exact ok_offset (by simp)

/-! ## Soundness -/

/-- The text of a value, or the end symbol. -/
def text : Option Value → Str
  | none => [101]
  | some v => marshal v

/-- With this fuel, values are read only from their texts. -/
def ValueSound (fuel : ℕ) : Prop :=
  ∀ {d d' : Decoder} {v : Option Value}, Raw d.buf → parseValueInterface fuel d = .ok (v, d') →
    (∀ w ∈ v, WellFormed (strLimit d.maxStrLen) w) ∧ Consumed d (text v) d'

/-- With this fuel, the items of a list are read only from their texts. -/
def ListSound (fuel : ℕ) : Prop :=
  ∀ {d d' : Decoder} {ys zs : List Value}, Raw d.buf → parseListInterface fuel ys d = .ok (zs, d') →
    ∃ xs, zs = ys ++ xs ∧ (∀ x ∈ xs, WellFormed (strLimit d.maxStrLen) x) ∧
      Consumed d (marshalItems xs ++ [101]) d'

/-- With this fuel, the entries of a dictionary are read only from their texts, in order. -/
def DictSound (fuel : ℕ) : Prop :=
  ∀ {d d' : Decoder} {dict dict' : List (Str × Value)} {last : Option Str}, Raw d.buf →
    Ascending dict → last = dict.getLast?.map fst →
    parseDictInterface fuel dict last d = .ok (dict', d') →
    ∃ es, dict' = dict ++ es ∧ Ascending dict' ∧
      (∀ e ∈ es, e.1.length ≤ strLimit d.maxStrLen ∧ WellFormed (strLimit d.maxStrLen) e.2) ∧
      Consumed d (marshalEntries es ++ [101]) d'

theorem listSound_succ (hv : ValueSound fuel) (hl : ListSound fuel) : ListSound (fuel + 1) := by
  intro d d' ys zs hraw h
  rw [parseListInterface] at h
  split at h
  · cases h
  · next d₁ hp =>
    obtain ⟨rfl, rfl⟩ := Prod.mk.inj (ok.inj h)
    exact ⟨[], by simp, by simp, (hv hraw hp).2⟩
  · next x d₁ hp =>
    obtain ⟨hx, hc⟩ := hv hraw hp
    obtain ⟨xs, rfl, hxs, hc'⟩ := hl (hc.buf ▸ hraw) h
    rw [hc.maxStrLen] at hxs
    refine ⟨x :: xs, by simp, ?_, ?_⟩
    · intro y hy
      rcases mem_cons.mp hy with rfl | hy
      · exact hx _ rfl
      · exact hxs y hy
    · rw [marshalItems, append_assoc]
      exact hc.trans hc'

theorem ascending_of_last {dict : List (Str × Value)} (h : Ascending dict) {k : Str}
    (hk : (dict.getLast?.map fst).any (fun last => decide (ord k ≤ ord last)) = false) :
    ∀ e ∈ dict, ord e.1 < ord k := by
  intro e he
  obtain ⟨ys, l, rfl⟩ := eq_nil_or_concat dict |>.resolve_left (ne_nil_of_mem he)
  rw [concat_eq_append] at h he hk
  have hl : ord l.1 < ord k := by simpa using hk
  rcases mem_append.mp he with he | he
  · exact lt_trans ((ascending_snoc.mp h).2 e he) hl
  · rwa [mem_singleton.mp he]

theorem dictSound_succ (hv : ValueSound fuel) (hd : DictSound fuel) : DictSound (fuel + 1) := by
  intro d d' dict dict' last hraw hasc hlast h
  rw [parseDictInterface] at h
  split at h
  · cases h
  · next d₁ hp =>
    obtain ⟨rfl, rfl⟩ := Prod.mk.inj (ok.inj h)
    exact ⟨[], by simp, hasc, by simp, (hv hraw hp).2⟩
  · next k d₁ hp =>
    split at h
    · cases h
    · next hsorted =>
      obtain ⟨hk, hc⟩ := hv hraw hp
      have hlt := ascending_of_last hasc (k := k) (by simpa [hlast] using hsorted)
      split at h
      · cases h
      · cases h
      · next x d₂ hp₂ =>
        obtain ⟨hx, hc₂⟩ := hv (hc.buf ▸ hraw) hp₂
        rw [setKey_last hlt] at h
        obtain ⟨es, rfl, hasc', hes, hc₃⟩ :=
          hd (hc₂.buf ▸ hc.buf ▸ hraw) (ascending_snoc.mpr ⟨hasc, hlt⟩) (by simp) h
        rw [hc₂.maxStrLen, hc.maxStrLen] at hes
        rw [hc.maxStrLen] at hx
        refine ⟨(k, x) :: es, by simp, hasc', ?_, ?_⟩
        · intro e he
          rcases mem_cons.mp he with rfl | he
          · exact ⟨hk _ rfl, hx _ rfl⟩
          · exact hes e he
        · rw [marshalEntries, append_assoc, append_assoc]
          exact hc.trans (hc₂.trans hc₃)
  · cases h

theorem valueSound_succ (hl : ListSound fuel) (hd : DictSound fuel) : ValueSound (fuel + 1) := by
  intro d d' v hraw h
  obtain ⟨rest, o, buf, m⟩ := d
  replace hraw : Raw buf := hraw
  cases rest with
  | nil =>
    rw [parseValueInterface] at h
    cases h
  | cons b r =>
    rw [parseValueInterface_cons] at h
    by_cases h101 : b = 101
    · rw [if_pos h101] at h
      obtain ⟨rfl, rfl⟩ := Prod.mk.inj (ok.inj h)
      subst h101
      exact ⟨by simp, rfl, rfl, rfl, rfl⟩
    rw [if_neg h101] at h
    by_cases h100 : b = 100
    · rw [if_pos h100] at h
      subst h100
      split at h
      · cases h
      · next es d₁ hp =>
        obtain ⟨rfl, rfl⟩ := Prod.mk.inj (ok.inj h)
        obtain ⟨es', rfl, hasc, hes, hc⟩ := hd hraw .nil rfl hp
        refine ⟨?_, hc.cons⟩
        rintro w ⟨⟩
        exact ⟨hasc, wellFormedEntries_iff.mpr hes⟩
    rw [if_neg h100] at h
    by_cases h108 : b = 108
    · rw [if_pos h108] at h
      subst h108
      split at h
      · cases h
      · next xs d₁ hp =>
        obtain ⟨rfl, rfl⟩ := Prod.mk.inj (ok.inj h)
        obtain ⟨xs', rfl, hxs, hc⟩ := hl hraw hp
        refine ⟨?_, hc.cons⟩
        rintro w ⟨⟩
        exact wellFormedItems_iff.mpr hxs
    rw [if_neg h108] at h
    by_cases h105 : b = 105
    · rw [if_pos h105] at h
      subst h105
      split at h
      · cases h
      · next n d₁ hp =>
        obtain ⟨rfl, rfl⟩ := Prod.mk.inj (ok.inj h)
        refine ⟨?_, (parseIntInterface_sound hraw hp).cons⟩
        rintro w ⟨⟩
        exact trivial
    rw [if_neg h105] at h
    by_cases hb : isDigit b
    · rw [if_pos hb] at h
      split at h
      · cases h
      · next s d₁ hp =>
        obtain ⟨rfl, rfl⟩ := Prod.mk.inj (ok.inj h)
        obtain ⟨hs, hc⟩ := parseStringInterface_sound hraw hp
        refine ⟨?_, hc⟩
        rintro w ⟨⟩
        exact hs
    · rw [if_neg hb] at h
      cases h

/-- **Soundness.** What is read is the text of what is returned. -/
theorem sound (fuel : ℕ) : ValueSound fuel ∧ ListSound fuel ∧ DictSound fuel := by
  induction fuel with
  | zero =>
    refine ⟨?_, ?_, ?_⟩
    · intro d d' v _ h
      cases h
    · intro d d' ys zs _ h
      cases h
    · intro d d' dict dict' last _ _ _ h
      cases h
  | succ fuel ih =>
    obtain ⟨hv, hl, hd⟩ := ih
    exact ⟨valueSound_succ hl hd, listSound_succ hv hl, dictSound_succ hv hd⟩

/-! ## `Unmarshal` into an `interface{}` -/

theorem parseValue_iface {τ : Type} (T : τ → GoType τ) (fuel : ℕ) (d : Decoder) :
    parseValue T (fuel + 1) .iface d =
      match parseValueInterface (fuel + 1) d with
      | .error e => .error e
      | .ok (none, _) => .error .reflectValue
      | .ok (some v, d) => .ok (⟨true, none, .iface v⟩, d) := by
  rw [parseValue]
  rfl

end Decoder

open Decoder

theorem unmarshal_marshal {τ : Type} (T : τ → GoType τ) {v : Value}
    (hv : WellFormed defaultDecodeMaxStrLen v) :
    unmarshal T .iface (marshal v) = .ok (.iface v) := by
  have hp := parseValueInterface_marshal (m := 0) v hv (.inl rfl)
    (2 * (marshal v).length + 2) (by omega) [] 0
  rw [append_nil] at hp
  refine unmarshal_ok_iff.mpr ⟨⟨[], 0 + (marshal v).length, [], 0⟩, decode_ok_iff.mpr ?_, rfl⟩
  rw [parseValue_iface, hp]

theorem unmarshal_iface_sound {τ : Type} {T : τ → GoType τ} {b : Str} {w : Val}
    (h : unmarshal T .iface b = .ok w) :
    ∃ v, w = .iface v ∧ WellFormed defaultDecodeMaxStrLen v ∧ marshal v = b := by
  obtain ⟨d', hd, hr⟩ := unmarshal_ok_iff.mp h
  rw [decode_ok_iff, parseValue_iface] at hd
  split at hd
  · cases hd
  · cases hd
  · next v d₁ hp =>
    obtain ⟨hw, rfl⟩ := mk.inj (ok.inj hd)
    obtain ⟨hv, hc⟩ := (sound _).1 .nil hp
    have hrest := hc.rest
    rw [hr, append_nil] at hrest
    exact ⟨v, (Parsed.mk.inj hw).2.2.symm, hv v rfl, hrest.symm⟩

/-- **Canonical form.** What `Unmarshal` accepts into an `interface{}` is what `Marshal` writes for
the value it returns, and it returns every value that `Marshal` has written. -/
theorem unmarshal_iface_canonical {τ : Type} (T : τ → GoType τ) :
    (∀ b w, unmarshal T .iface b = .ok w →
      ∃ v, w = .iface v ∧ WellFormed defaultDecodeMaxStrLen v ∧ marshal v = b) ∧
    ∀ v, WellFormed defaultDecodeMaxStrLen v → unmarshal T .iface (marshal v) = .ok (.iface v) :=
  ⟨fun _ _ h => unmarshal_iface_sound h, fun _ hv => unmarshal_marshal T hv⟩

/-- `d1:ai5ee`. -/
theorem unmarshal_iface_dict :
    unmarshal (fun _ : Unit => .iface) .iface [100, 49, 58, 97, 105, 53, 101, 101] =
      .ok (.iface (.dict [([97], .int (.int64 5))])) :=
  (unmarshal_iface_canonical fun _ : Unit => .iface).2 (.dict [([97], .int (.int64 5))]) (by decide)

end ReliableBT.Bencode
