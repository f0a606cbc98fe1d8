import ReliableBT.Bencode.Canonical

/-!
# The scratch buffer

`readOneValue` copies the text of a value to the buffer, and leaves it there. The functions for an
`interface{}` then fail at the first number or string: they take what is in the buffer for its
beginning.

* `Text.readOneValue`: the text of a value is appended to the buffer.
* `raw_value`: so what is left in an empty buffer is the text.
* `parseValueInterface_raw`: after the text of a value, a value that is not made of empty containers
  alone is refused.
-/

open List

namespace ReliableBT.Bencode

open Decimal

namespace Decoder

/-! ## Copying the text of a value -/

theorem copyN_append (s r : Str) (o : ℕ) (buf : Str) (m : Int64) :
    copyN s.length ⟨s ++ r, o, buf, m⟩ = .ok ⟨r, o + s.length, buf ++ s, m⟩ := by
  rw [copyN, if_pos (by simp)]
  simp

variable {b : UInt8} {s : Str} {m : Int64} {xs : List Value} {buf : Str}

theorem readOneString_reflectString {u : Str} (h : formatNat s.length = b :: u)
    (hs : s.length < 2 ^ 63) (r : Str) (o : ℕ) (buf : Str) (m : Int64) :
    readOneString ⟨u ++ 58 :: (s ++ r), o, buf ++ [b], m⟩ =
      .ok ⟨r, o + (u.length + 1) + s.length, buf ++ reflectString s, m⟩ := by
  have hdrop : (buf ++ [b] ++ u).drop ((buf ++ [b]).length - 1) = b :: u := by
    simp
  rw [readOneString, readUntil_eq (colon_notMem h)]
  simp only [bind, Except.bind, hdrop, parseInt_length h hs, Int.toNat_natCast]
  rw [copyN_append, reflectString, h]
  simp

theorem readValues_texts {texts : List Str} (hne : ∀ t ∈ texts, 0 < t.length)
    (h : ∀ t ∈ texts, ∀ fuel, 2 * t.length ≤ fuel + 1 → ∀ r o buf,
      readOneValue fuel ⟨t ++ r, o, buf, m⟩ = .ok (true, ⟨r, o + t.length, buf ++ t, m⟩)) (fuel : ℕ)
    (hf : 2 * texts.flatten.length + 2 ≤ fuel) (r : Str) (o : ℕ) (buf : Str) :
    readValues fuel ⟨texts.flatten ++ 101 :: r, o, buf, m⟩ =
      .ok ⟨101 :: r, o + texts.flatten.length, buf ++ texts.flatten, m⟩ := by
  induction texts generalizing fuel o buf with
  | nil =>
    obtain ⟨fuel, rfl⟩ : ∃ k, fuel = k + 2 := ⟨fuel - 2, by omega⟩
    simp [readValues, readOneValue]
  | cons t texts ih =>
    obtain ⟨fuel, rfl⟩ : ∃ k, fuel = k + 1 := ⟨fuel - 1, by omega⟩
    have hpos := hne t mem_cons_self
    rw [flatten_cons, length_append] at hf ⊢
    rw [readValues, append_assoc, h t mem_cons_self fuel (by omega)]
    simp only
    rw [ih (fun t ht => hne t (mem_cons_of_mem _ ht))
      (fun t ht => h t (mem_cons_of_mem _ ht)) _ (by omega), append_assoc, Nat.add_assoc]

theorem length_reflectString_pos (s : Str) : 0 < (reflectString s).length := by
  simp [reflectString]

theorem readOneValue_str (hs : s.length < 2 ^ 63) (fuel : ℕ)
    (hf : 2 * (reflectString s).length ≤ fuel + 1) (r : Str) (o : ℕ) (buf : Str) (m : Int64) :
    readOneValue fuel ⟨reflectString s ++ r, o, buf, m⟩ =
      .ok (true, ⟨r, o + (reflectString s).length, buf ++ reflectString s, m⟩) := by
  have hpos := length_reflectString_pos s
  obtain ⟨fuel, rfl⟩ : ∃ k, fuel = k + 1 := ⟨fuel - 1, by omega⟩
  obtain ⟨b, u, hbu, hb⟩ := formatNat_cons s.length
  have hne : ∀ c : UInt8, ¬ isDigit c → b ≠ c := fun c hc h => hc (h ▸ hb)
  have htext : reflectString s ++ r = b :: (u ++ 58 :: (s ++ r)) := by
    rw [reflectString, hbu]
    simp
  have hor : ¬ (b = 100 ∨ b = 108) := not_or.mpr ⟨hne _ (by decide), hne _ (by decide)⟩
  rw [htext, readOneValue]
  simp only [if_neg (hne 101 (by decide)), if_neg hor, if_neg (hne 105 (by decide)), hb, if_true]
  rw [readOneString_reflectString hbu hs]
  refine ok_offset ?_
  rw [reflectString, hbu]
  simp
  omega

theorem readOneValue_container (hb : b = 100 ∨ b = 108) {fuel o : ℕ} {r : Str}
    (h : readValues fuel ⟨s ++ 101 :: r, o + 1, buf ++ [b], m⟩ =
      .ok ⟨101 :: r, o + 1 + s.length, buf ++ [b] ++ s, m⟩) :
    readOneValue (fuel + 1) ⟨b :: (s ++ [101]) ++ r, o, buf, m⟩ =
      .ok (true, ⟨r, o + (b :: (s ++ [101])).length, buf ++ b :: (s ++ [101]), m⟩) := by
  have h101 : b ≠ 101 := by rcases hb with rfl | rfl <;> decide
  rw [cons_append, append_assoc, singleton_append, readOneValue]
  simp only [if_neg h101, if_pos hb, h, readByte]
  simp
  omega

/-- The texts of values. An integer may have any size, and keys come in any order; the length of a
string is an `int64`. -/
inductive Text : Str → Prop
  | int (n : ℤ) : Text (105 :: (formatInt n ++ [101]))
  | str {s : Str} (hs : s.length < 2 ^ 63) : Text (reflectString s)
  | list {texts : List Str} (h : ∀ t ∈ texts, Text t) : Text (108 :: (texts.flatten ++ [101]))
  | dict {entries : List (Str × Str)} (hkeys : ∀ e ∈ entries, e.1.length < 2 ^ 63)
      (h : ∀ e ∈ entries, Text e.2) :
      Text (100 :: ((entries.flatMap fun e => [reflectString e.1, e.2]).flatten ++ [101]))

theorem Text.length_pos {t : Str} (h : Text t) : 0 < t.length := by
  cases h with
  | str _ => exact length_reflectString_pos _
  | _ => exact Nat.succ_pos _

/-- **The text of a value** is appended to the buffer. -/
theorem Text.readOneValue {t : Str} (h : Text t) (fuel : ℕ) (hf : 2 * t.length ≤ fuel + 1)
    (r : Str) (o : ℕ) (buf : Str) :
    readOneValue fuel ⟨t ++ r, o, buf, m⟩ = .ok (true, ⟨r, o + t.length, buf ++ t, m⟩) := by
  induction h generalizing fuel r o buf with
  | int n =>
    obtain ⟨fuel, rfl⟩ : ∃ k, fuel = k + 1 := ⟨fuel - 1, by simp at hf; omega⟩
    have hs : 101 ∉ formatInt n := notMem_formatInt (by decide) (by decide) _
    rw [cons_append, append_assoc, singleton_append, Decoder.readOneValue]
    simp only [readUntil_eq hs, show (105 : UInt8) ≠ 101 by decide,
      show ¬ ((105 : UInt8) = 100 ∨ (105 : UInt8) = 108) by decide, if_false, if_true]
    simp
    omega
  | str hs => exact readOneValue_str hs fuel hf r o buf m
  | list h ih =>
    rw [length_cons, length_append, length_singleton] at hf
    obtain ⟨fuel, rfl⟩ : ∃ k, fuel = k + 1 := ⟨fuel - 1, by omega⟩
    exact readOneValue_container (.inr rfl)
      (readValues_texts (fun t ht => (h t ht).length_pos) ih fuel (by omega) ..)
  | dict hkeys h ih =>
    rw [length_cons, length_append, length_singleton] at hf
    obtain ⟨fuel, rfl⟩ : ∃ k, fuel = k + 1 := ⟨fuel - 1, by omega⟩
    -- the keys are texts as well
    refine readOneValue_container (.inl rfl) (readValues_texts ?_ ?_ fuel (by omega) ..)
    · intro t ht
      obtain ⟨e, he, ht⟩ := mem_flatMap.mp ht
      rcases mem_pair.mp ht with rfl | rfl
      · exact length_reflectString_pos _
      · exact (h e he).length_pos
    · intro t ht
      obtain ⟨e, he, ht⟩ := mem_flatMap.mp ht
      rcases mem_pair.mp ht with rfl | rfl
      · exact fun fuel hf r o buf => readOneValue_str (hkeys e he) fuel hf r o buf m
      · exact ih e he

theorem marshalItems_eq (xs : List Value) : marshalItems xs = (xs.map marshal).flatten := by
  induction xs with
  | nil => rfl
  | cons x xs ih => rw [marshalItems, ih, map_cons, flatten_cons]

theorem marshalEntries_eq (es : List (Str × Value)) :
    marshalEntries es = ((es.map fun e => (e.1, marshal e.2)).flatMap
      fun e => [reflectString e.1, e.2]).flatten := by
  induction es with
  | nil => rfl
  | cons e es ih =>
    obtain ⟨k, x⟩ := e
    simp [marshalEntries, ih]

theorem text_marshal {m : Int64} (v : Value) (hv : WellFormed (strLimit m) v) :
    Text (marshal v) := by
  have hlen : ∀ n : ℕ, (n : ℤ) ≤ strLimit m → n < 2 ^ 63 := fun n hn => by
    have := strLimit_lt m
    omega
  induction v with
  | int n => exact .int n.toInt
  | str s => exact .str (hlen _ hv)
  | list xs ih =>
    have hxs := wellFormedItems_iff.mp hv
    rw [marshal, marshalItems_eq]
    refine .list fun t ht => ?_
    obtain ⟨x, hx, rfl⟩ := mem_map.mp ht
    exact ih x hx (hxs x hx)
  | dict es ih =>
    have hes := wellFormedEntries_iff.mp hv.2
    rw [marshal, marshalEntries_eq]
    refine .dict ?_ ?_ <;> rintro _ hmem <;> obtain ⟨e, he, rfl⟩ := mem_map.mp hmem
    · exact hlen _ (hes e he).1
    · exact ih e he (hes e he).2

/-- **Raw values.** The text of a value is read to the buffer, up to its last byte; what is not a
value is not read. -/
theorem raw_value {t : Str} (ht : Text t) (rest : Str) (o : ℕ) (m : Int64) :
    (∀ fuel, 2 * t.length ≤ fuel + 1 →
      readOneValue fuel ⟨t ++ rest, o, [], m⟩ = .ok (true, ⟨rest, o + t.length, t, m⟩)) ∧
    ∀ fuel buf, readOneValue (fuel + 1) ⟨101 :: rest, o, buf, m⟩ =
      .ok (false, ⟨101 :: rest, o, buf, m⟩) :=
  ⟨fun fuel hf => ht.readOneValue fuel hf rest o [], fun _ _ => by simp [readOneValue]⟩

theorem raw_value_list :
    readOneValue 17 ⟨[108, 105, 45, 53, 101, 49, 58, 98, 101, 7], 3, [], 0⟩ =
      .ok (true, ⟨[7], 12, [108, 105, 45, 53, 101, 49, 58, 98, 101], 0⟩) := by
  have ht : Text [108, 105, 45, 53, 101, 49, 58, 98, 101] := by
    refine @Text.list [[105, 45, 53, 101], [49, 58, 98]] fun t ht => ?_
    rcases List.mem_pair.mp ht with rfl | rfl
    · exact .int (-5)
    · exact @Text.str [98] (by decide)
  exact (raw_value ht [7] 3 0).1 17 (by decide)

/-! ## Values after other text -/

theorem parseListInterface_raw
    (hok : ∀ x ∈ xs, hollow x → ∀ fuel, 2 * (marshal x).length ≤ fuel + 1 → ∀ r o,
      parseValueInterface fuel ⟨marshal x ++ r, o, buf, m⟩ =
        .ok (some x, ⟨r, o + (marshal x).length, buf, m⟩))
    (herr : ∀ x ∈ xs, ¬ hollow x → ∀ fuel, 2 * (marshal x).length ≤ fuel + 1 → ∀ r o,
      ∃ e, parseValueInterface fuel ⟨marshal x ++ r, o, buf, m⟩ = .error e)
    (hx : ∃ x ∈ xs, ¬ hollow x) (ys : List Value) (fuel : ℕ)
    (hf : 2 * (marshalItems xs).length + 2 ≤ fuel) (r : Str) (o : ℕ) :
    ∃ e, parseListInterface fuel ys ⟨marshalItems xs ++ 101 :: r, o, buf, m⟩ = .error e := by
  induction xs generalizing ys fuel o with
  | nil => simp at hx
  | cons x xs ih =>
    obtain ⟨fuel, rfl⟩ : ∃ k, fuel = k + 1 := ⟨fuel - 1, by omega⟩
    have hpos := length_marshal_pos x
    simp only [marshalItems, length_append] at hf ⊢
    rw [parseListInterface, append_assoc]
    by_cases hh : hollow x
    · rw [hok x (mem_cons_self ..) hh fuel (by omega)]
      refine ih (fun y hy => hok y (mem_cons_of_mem _ hy))
        (fun y hy => herr y (mem_cons_of_mem _ hy)) ?_ _ _ (by omega) _
      obtain ⟨y, hy, hny⟩ := hx
      rcases mem_cons.mp hy with rfl | hy
      · exact absurd hh hny
      · exact ⟨y, hy, hny⟩
    · obtain ⟨e, he⟩ := herr x (mem_cons_self ..) hh fuel (by omega)
        (marshalItems xs ++ 101 :: r) o
      rw [he]
      exact ⟨e, rfl⟩

theorem parseValueInterface_str_raw (hraw : Raw buf) (hne : buf ≠ []) (s : Str) (fuel : ℕ) (r : Str)
    (o : ℕ) (m : Int64) :
    ∃ e, parseValueInterface (fuel + 1) ⟨reflectString s ++ r, o, buf, m⟩ = .error e := by
  obtain ⟨b, u, hbu, hb⟩ := formatNat_cons s.length
  have hnd : ∀ c : UInt8, ¬ isDigit c → b ≠ c := fun c hc h => hc (h ▸ hb)
  obtain ⟨e, he⟩ := parseStringInterface_raw hraw hne b (u ++ 58 :: (s ++ r)) (o + 1) m
  have htext : reflectString s ++ r = b :: (u ++ 58 :: (s ++ r)) := by
    rw [reflectString, hbu]
    simp
  rw [htext, parseValueInterface_cons, if_neg (hnd 101 (by decide)),
    if_neg (hnd 100 (by decide)), if_neg (hnd 108 (by decide)), if_neg (hnd 105 (by decide)),
    if_pos hb, he]
  exact ⟨e, rfl⟩

/-- **Refused.** With the text of a value in the buffer, every value with a number or a string in
it is refused. -/
theorem parseValueInterface_raw (hraw : Raw buf) (hne : buf ≠ []) (v : Value)
    (hv : WellFormed (strLimit m) v) (hh : ¬ hollow v) (fuel : ℕ)
    (hf : 2 * (marshal v).length ≤ fuel + 1) (r : Str) (o : ℕ) :
    ∃ e, parseValueInterface fuel ⟨marshal v ++ r, o, buf, m⟩ = .error e := by
  induction v generalizing fuel r o with
  | int n =>
    obtain ⟨fuel, rfl⟩ : ∃ k, fuel = k + 1 := ⟨fuel - 1, by simp [marshal] at hf; omega⟩
    obtain ⟨e, he⟩ := parseIntInterface_raw
      (d := ⟨formatInt n.toInt ++ [101] ++ r, o + 1, buf, m⟩) hraw hne
    rw [marshal, cons_append, parseValueInterface_int, he]
    exact ⟨e, rfl⟩
  | str s =>
    obtain ⟨fuel, rfl⟩ : ∃ k, fuel = k + 1 :=
      ⟨fuel - 1, by have := length_marshal_pos (.str s); omega⟩
    exact parseValueInterface_str_raw hraw hne s fuel r o m
  | list xs ih =>
    rw [marshal, length_cons, length_append, length_singleton] at hf
    obtain ⟨fuel, rfl⟩ : ∃ k, fuel = k + 1 := ⟨fuel - 1, by omega⟩
    have hxs := wellFormedItems_iff.mp hv
    have hx : ∃ x ∈ xs, ¬ hollow x := by
      rw [hollow, hollowItems_iff] at hh
      simpa using hh
    obtain ⟨e, he⟩ := parseListInterface_raw
      (fun x hx hh fuel hf r o => parseValueInterface_marshal x (hxs x hx) (.inr hh) fuel hf r o)
      (fun x hx hh fuel hf r o => ih x hx (hxs x hx) hh fuel hf r o) hx [] fuel (by omega) r (o + 1)
    rw [marshal, cons_append, parseValueInterface_list, append_assoc, singleton_append, he]
    exact ⟨e, rfl⟩
  | dict es ih =>
    rw [marshal, length_cons, length_append, length_singleton] at hf
    cases es with
    | nil => exact absurd rfl hh
    | cons e es =>
      obtain ⟨k, x⟩ := e
      obtain ⟨fuel, rfl⟩ : ∃ j, fuel = j + 3 := ⟨fuel - 3, by
        have := length_marshal_pos x
        simp only [marshalEntries, length_append] at hf
        omega⟩
      obtain ⟨err, he⟩ := parseValueInterface_str_raw hraw hne k fuel
        (marshal x ++ marshalEntries es ++ 101 :: r) (o + 1) m
      rw [marshal, cons_append, parseValueInterface_dict, append_assoc,
        singleton_append, parseDictInterface, marshalEntries, append_assoc, he]
      exact ⟨err, rfl⟩

end Decoder

end ReliableBT.Bencode
