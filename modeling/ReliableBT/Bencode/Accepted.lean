import ReliableBT.Bencode.Typed

/-!
# What is accepted as bencode (`bencode/decode.go`)

For which Go types does `Unmarshal` accept only the text of a bencode value? The grammar is that of
`marshal`, with the entries of a dictionary in any order: integers are canonical numerals, so are
the lengths of strings, and a dictionary alternates strings and values.

Integers and strings are read strictly. But

* `parseInt` does not look at the text of an integer that is stored in a `bool`;
* `readOneValue`, which finds the text of a value for an `Unmarshaler` such as `bencode.Bytes`,
  looks at nothing but where the value ends;
* `parseDict` reads a key like any other `string`, and so it takes a list with one string in it.

`Loose` are the types with such a variable in them, and `strict_iff` says that these are the types
that accept more than bencode.
-/

open List Prod

namespace ReliableBT.Bencode

open Decimal Decoder

variable {τ : Type}

/-- The text of a value. -/
def IsText (b : Str) : Prop := ∃ v, marshal v = b

/-! ## The types -/

/-- `bool`, the integer kinds, `string`, `bencode.Bytes`, and slices and structs. -/
inductive GoType.Basic : GoType τ → Prop
  | bool : Basic ⟨.bool, none⟩
  | int (bits : ℕ) : Basic ⟨.int bits, none⟩
  | uint (bits : ℕ) : Basic ⟨.uint bits, none⟩
  | string : Basic .string
  | bytes (byte : τ) : Basic (.bytes byte)
  | slice (elem : τ) : Basic ⟨.slice elem, none⟩
  | struct (fields : List (Field τ)) : Basic ⟨.struct fields, none⟩

variable {g : GoType τ} {key : Str} {fuel : ℕ} {fields : List (Field τ)} {w : Val} {rest : Str}
  {o : ℕ} {d' : Decoder}

theorem GoType.Basic.indirect {T : τ → GoType τ} (hg : g.Basic) : g.indirect T = (g, id) := by
  cases hg <;> rfl

theorem GoType.Basic.kind_ne {T : τ → GoType τ} (hg : g.Basic) :
    (g.indirect T).1.kind ≠ .iface := by
  cases hg <;> exact nofun

/-- The value for the key is discarded, or there is a field for it that can be set. -/
def Takes (fields : List (Field τ)) (key : Str) : Prop :=
  (getStructFieldForKey fields key).all fun f => f.1.settable

/-- The type is, or is a slice of, `bool`, `bencode.Bytes` or a struct that takes some key. -/
inductive Loose (T : τ → GoType τ) : GoType τ → Prop
  | bool : Loose T ⟨.bool, none⟩
  | bytes (byte : τ) : Loose T (.bytes byte)
  | struct (fields : List (Field τ)) (key : Str) (hkey : key.length ≤ defaultDecodeMaxStrLen)
      (htakes : Takes fields key) : Loose T ⟨.struct fields, none⟩
  | slice (elem : τ) (helem : Loose T (T elem)) : Loose T ⟨.slice elem, none⟩

/-! ## Texts that are misread -/

/-- The text is accepted for the type, whatever follows, and no text of a value begins like it. -/
structure Misread (T : τ → GoType τ) (g : GoType τ) (b : Str) : Prop where
  head : ∃ c s, b = c :: s ∧ c ≠ 101
  accepted : ∀ fuel, 2 * b.length ≤ fuel + 1 → ∀ r o, ∃ w buf,
    parseValue T fuel g ⟨b ++ r, o, [], 0⟩ = .ok (⟨true, none, w⟩, ⟨r, o + b.length, buf, 0⟩)
  noText : ∀ r v r', b ++ r ≠ marshal v ++ r'

theorem formatInt_ne_nil (n : ℤ) : formatInt n ≠ [] := by
  rw [formatInt]
  split
  · exact cons_ne_nil _ _
  · exact formatNat_ne_nil _

theorem noText_ie (r : Str) (v : Value) (r' : Str) : [105, 101] ++ r ≠ marshal v ++ r' := by
  intro h
  cases v with
  | int n =>
    have hnot := notMem_formatInt (b := 101) (by decide) (by decide) n.toInt
    obtain ⟨c, u, hcu⟩ := exists_cons_of_ne_nil (formatInt_ne_nil n.toInt)
    rw [marshal, hcu] at h
    simp only [cons_append, nil_append, cons.injEq, true_and] at h
    exact hnot (by rw [hcu, ← h.1]; exact mem_cons_self ..)
  | str s => exact reflectString_head (by decide) s _ _ h
  | list xs => simp [marshal] at h
  | dict es => simp [marshal] at h

theorem noText_dict_list (r : Str) (v : Value) (r' : Str) : 100 :: 108 :: r ≠ marshal v ++ r' := by
  intro h
  cases v with
  | int n => simp [marshal] at h
  | str s => exact reflectString_head (by decide) s _ _ h
  | list xs => simp [marshal] at h
  | dict es =>
    simp only [marshal, cons_append, cons.injEq, true_and] at h
    cases es with
    | nil => simp [marshalEntries] at h
    | cons e es =>
      obtain ⟨k, x⟩ := e
      rw [marshalEntries, append_assoc, append_assoc] at h
      exact reflectString_head (by decide) k _ _ h

theorem misread_bool (T : τ → GoType τ) : Misread T ⟨.bool, none⟩ [105, 101] where
  head := ⟨105, [101], rfl, by decide⟩
  accepted fuel hf r o := by
    obtain ⟨fuel, rfl⟩ : ∃ k, fuel = k + 1 := ⟨fuel - 1, by simp at hf; omega⟩
    exact ⟨_, _, rfl⟩
  noText := noText_ie

theorem misread_bytes (T : τ → GoType τ) (byte : τ) : Misread T (.bytes byte) [105, 101] where
  head := ⟨105, [101], rfl, by decide⟩
  accepted fuel hf r o := by
    obtain ⟨fuel, rfl⟩ : ∃ k, fuel = k + 1 := ⟨fuel - 1, by simp at hf; omega⟩
    exact ⟨_, _, rfl⟩
  noText := noText_ie

theorem Misread.slice {T : τ → GoType τ} {elem : τ} {b : Str} (h : Misread T (T elem) b)
    (hk : ((T elem).indirect T).1.kind ≠ .iface) :
    Misread T ⟨.slice elem, none⟩ (108 :: (b ++ [101])) where
  head := ⟨108, _, rfl, by decide⟩
  accepted fuel hf r o := by
    have hpos : 0 < b.length := by
      obtain ⟨c, s, rfl, -⟩ := h.head
      exact Nat.succ_pos _
    simp only [length_cons, length_append, length_nil] at hf
    obtain ⟨fuel, rfl⟩ : ∃ k, fuel = k + 4 := ⟨fuel - 4, by omega⟩
    obtain ⟨w, buf, hw⟩ := h.accepted (fuel + 2) (by omega) (101 :: r) (o + 1)
    refine ⟨.list [w], if ((T elem).indirect T).1.unmarshaler.isSome then [] else buf, ?_⟩
    rw [cons_append, append_assoc, singleton_append,
      parseValue_cons (g := ⟨.slice elem, none⟩) rfl (by simp [GoType.indirect]),
      if_neg (by decide), if_neg (by decide), if_pos rfl]
    have hitems : parseItems T (fuel + 3) (T elem, none) [] ⟨b ++ 101 :: r, o + 1, [], 0⟩ =
        .ok ((none, [w]), ⟨r, o + 1 + b.length + 1,
          if ((T elem).indirect T).1.unmarshaler.isSome then [] else buf, 0⟩) := by
      rw [parseItems, ← room, if_pos (room_none _), hw]
      dsimp only
      rw [parseItems, ← room, if_pos (room_none _), parseValue_end hk]
      rfl
    have hlist : itemType T (GoType.indirect T ⟨.slice elem, none⟩).1 = (T elem, none) := rfl
    rw [hlist, hitems]
    exact ok_offset (by simp; omega)
  noText r v r' heq := by
    obtain ⟨c, u, rfl, hc⟩ := h.head
    cases v with
    | int n => simp [marshal] at heq
    | str s => exact reflectString_head (by decide) s _ _ heq
    | dict es => simp [marshal] at heq
    | list xs =>
      simp only [marshal, cons_append, cons.injEq, true_and] at heq
      cases xs with
      | nil =>
        simp only [marshalItems, nil_append, cons_append, cons.injEq] at heq
        exact hc heq.1
      | cons x xs =>
        rw [marshalItems, append_assoc, append_assoc, append_assoc, ← cons_append] at heq
        exact h.noText _ _ _ heq

/-- A value that every variable of the type takes. -/
def plainValue (g : GoType τ) : Value :=
  match g.kind, g.unmarshaler with
  | .int _, _ | .uint _, _ | .bool, _ => .int (.int64 0)
  | .slice _, none => .list []
  | .struct _, _ => .dict []
  | _, _ => .str []

theorem outcome_plainValue {T : τ → GoType τ} (hT : ∀ t, (T t).Basic) (hg : g.Basic) :
    ∃ w buf, outcome T g (plainValue g) [] = some ((none, w), buf) := by
  cases hg with
  | bool => exact ⟨_, _, rfl⟩
  | int bits =>
    refine ⟨.int 0, [], ?_⟩
    have hrange : -2 ^ (bits - 1) ≤ (0 : ℤ) ∧ (0 : ℤ) < 2 ^ (bits - 1) := by
      constructor
      · simp
      · positivity
    have hint : outcomeInt (⟨.int bits, none⟩ : GoType τ) [48] = some ((none, .int 0), []) := by
      change (if -2 ^ (bits - 1) ≤ (0 : ℤ) ∧ (0 : ℤ) < 2 ^ (bits - 1) then _ else _) = _
      rw [if_pos hrange]
      rfl
    change (outcomeInt (⟨.int bits, none⟩ : GoType τ) [48]).map _ = _
    rw [hint]
    rfl
  | uint bits =>
    refine ⟨.int 0, [], ?_⟩
    have hint : outcomeInt (⟨.uint bits, none⟩ : GoType τ) [48] = some ((none, .int 0), []) := by
      have hpos := Nat.two_pow_pos bits
      exact if_pos hpos
    change (outcomeInt (⟨.uint bits, none⟩ : GoType τ) [48]).map _ = _
    rw [hint]
    rfl
  | string => exact ⟨_, _, rfl⟩
  | bytes byte => exact ⟨_, _, rfl⟩
  | slice elem =>
    obtain ⟨buf, hitems⟩ : ∃ buf, outcomeItems T (T elem, none) [] [] [] = some ([], buf) := by
      have hk := (hT elem).kind_ne (T := T)
      rw [outcomeItems, if_pos (room_none _)]
      split
      · next h => exact absurd h hk
      · exact ⟨_, rfl⟩
      · exact ⟨_, rfl⟩
    refine ⟨.list [], buf, ?_⟩
    change ((outcomeItems T (T elem, none) [] [] []).map _).map _ = _
    rw [hitems]
    rfl
  | struct fields => exact ⟨_, _, rfl⟩

theorem parseValue_listKey (T : τ → GoType τ) (hkey : key.length ≤ defaultDecodeMaxStrLen)
    (hf : 2 * (marshal (.list [.str key])).length ≤ fuel + 1) (r : Str) (o : ℕ) :
    parseValue T fuel .string ⟨marshal (.list [.str key]) ++ r, o, [], 0⟩ =
      .ok (⟨true, none, .str key⟩, ⟨r, o + (marshal (.list [.str key])).length, [], 0⟩) := by
  have hwf : WellFormed (strLimit 0) (.list [.str key]) := ⟨hkey, trivial⟩
  have hout : outcome T .string (.list [.str key]) [] = some ((none, .str key), []) := rfl
  exact parseValue_outcome T _ hwf hout fuel hf r o

theorem wellFormed_plainValue (g : GoType τ) (m : Int64) (hm : 0 ≤ strLimit m) :
    WellFormed (strLimit m) (plainValue g) := by
  rw [plainValue]
  split
  · trivial
  · trivial
  · trivial
  · trivial
  · exact ⟨.nil, trivial⟩
  · exact hm

theorem parseDict_takes {T : τ → GoType τ} (hT : ∀ t, (T t).Basic)
    (hkey : key.length ≤ defaultDecodeMaxStrLen) (htakes : Takes fields key) :
    ∃ x : Value, ∀ fuel,
      2 * (marshal (.list [.str key])).length + 2 * (marshal x).length ≤ fuel → ∀ r o, ∃ w buf,
        parseDict T (fuel + 1) ⟨.struct fields, none⟩ .zero
          ⟨marshal (.list [.str key]) ++ (marshal x ++ r), o, [], 0⟩ =
        parseDict T fuel ⟨.struct fields, none⟩ w
          ⟨r, o + (marshal (.list [.str key])).length + (marshal x).length, buf, 0⟩ := by
  cases hfield : getStructFieldForKey fields key with
  | none =>
    have hwf : WellFormed (strLimit 0) (.str []) := by decide
    refine ⟨.str [], fun fuel hf r o => ⟨.zero, [], ?_⟩⟩
    rw [parseDict, parseValue_listKey T hkey (by omega)]
    simp only [getDictField, Val.text, hfield]
    rw [parseValueInterface_marshal (.str []) hwf (.inl rfl) _ (by omega)]
  | some f =>
    obtain ⟨f, i⟩ := f
    have hset : f.settable = true := by simpa [Takes, hfield] using htakes
    obtain ⟨w, buf, hout⟩ := outcome_plainValue hT (hT f.type)
    have hwf : WellFormed (strLimit 0) (plainValue (T f.type)) :=
      wellFormed_plainValue _ _ (by decide)
    refine ⟨plainValue (T f.type), fun fuel hf r o => ⟨.struct [(i, w)], buf, ?_⟩⟩
    rw [parseDict, parseValue_listKey T hkey (by omega)]
    simp only [getDictField, Val.text, hfield]
    rw [parseValue_outcome T _ hwf hout fuel (by omega)]
    have hget : setField fields f i .zero w = .ok (.struct [(i, w)]) := by
      cases hp : f.ptr <;> simp [setField, hp, ptrSet, Val.slots, hset]
    simp [Parsed.uncaught, hget]

/-- **Keys** may be lists with one string in them. -/
theorem Misread.struct {T : τ → GoType τ} (hT : ∀ t, (T t).Basic)
    (hkey : key.length ≤ defaultDecodeMaxStrLen) (htakes : Takes fields key) :
    ∃ b, Misread T ⟨.struct fields, none⟩ b := by
  obtain ⟨x, hx⟩ := parseDict_takes hT hkey htakes
  refine ⟨100 :: (marshal (.list [.str key]) ++ (marshal x ++ [101])), ⟨100, _, rfl, by decide⟩,
    ?_, ?_⟩
  · intro fuel hf r o
    simp only [length_cons, length_append, length_nil] at hf
    obtain ⟨fuel, rfl⟩ : ∃ k, fuel = k + 4 :=
      ⟨fuel - 4, by
        have := length_marshal_pos x
        have := length_marshal_pos (.list [.str key])
        omega⟩
    obtain ⟨w, buf, hw⟩ := hx (fuel + 2) (by omega) (101 :: r) (o + 1)
    refine ⟨w, buf, ?_⟩
    rw [cons_append, append_assoc, append_assoc, singleton_append,
      parseValue_cons (g := ⟨.struct fields, none⟩) rfl (by simp [GoType.indirect]),
      if_neg (by decide), if_pos rfl]
    erw [hw]
    rw [parseDict, parseValue_end (by simp [GoType.indirect, GoType.string])]
    exact ok_offset (by simp; omega)
  · intro r v r' heq
    exact noText_dict_list _ v r' heq

/-- **Misread.** Every loose type takes a text that is not bencode. -/
theorem Loose.misread {T : τ → GoType τ} (hT : ∀ t, (T t).Basic) (hg : Loose T g) :
    ∃ b, Misread T g b := by
  induction hg with
  | bool => exact ⟨_, misread_bool T⟩
  | bytes byte => exact ⟨_, misread_bytes T byte⟩
  | struct fields key hkey htakes => exact Misread.struct hT hkey htakes
  | slice elem _ ih =>
    obtain ⟨b, hb⟩ := ih
    exact ⟨_, hb.slice (hT elem).kind_ne⟩

/-! ## Texts that are read strictly -/

/-- A type that is read strictly. -/
structure Strict (T : τ → GoType τ) (g : GoType τ) : Prop where
  basic : g.Basic
  notLoose : ¬ Loose T g

theorem strict_string (T : τ → GoType τ) : Strict T .string where
  basic := .string
  notLoose := nofun

namespace Strict

variable {T : τ → GoType τ} {g : GoType τ}

theorem unmarshaler (hg : Strict T g) : g.unmarshaler = none := by
  obtain ⟨hb, hl⟩ := hg
  cases hb with
  | bytes byte => exact absurd (.bytes byte) hl
  | _ => rfl

theorem kind_ne_bool (hg : Strict T g) : g.kind ≠ .bool := by
  obtain ⟨hb, hl⟩ := hg
  cases hb with
  | bool => exact absurd .bool hl
  | _ => exact nofun

theorem item (hT : ∀ t, (T t).Basic) (hg : Strict T g) :
    ∃ h, itemType T g = (h, none) ∧ Strict T h ∧ (g = .string → h = .string) := by
  obtain ⟨hb, hl⟩ := hg
  cases hb with
  | slice elem => exact ⟨T elem, rfl, ⟨hT elem, fun h => hl (.slice elem h)⟩, nofun⟩
  | bytes byte => exact absurd (.bytes byte) hl
  | bool => exact absurd .bool hl
  | int bits => exact ⟨_, rfl, ⟨.int bits, hl⟩, id⟩
  | uint bits => exact ⟨_, rfl, ⟨.uint bits, hl⟩, id⟩
  | string => exact ⟨_, rfl, ⟨.string, hl⟩, id⟩
  | struct fields => exact ⟨_, rfl, ⟨.struct fields, hl⟩, id⟩

theorem field (hg : Strict T g) {key : Str} (hkey : key.length ≤ defaultDecodeMaxStrLen) :
    (∃ e, getDictField g key = .error e) ∨
      ∃ elem get ignores, getDictField g key = .ok ⟨some elem, get, ignores⟩ ∧
        ∀ v x, ∃ e, get v x = .error e := by
  obtain ⟨hb, hl⟩ := hg
  cases hb with
  | struct fields =>
    have htakes : ¬ Takes fields key := fun h => hl (.struct fields key hkey h)
    obtain ⟨⟨f, i⟩, hf⟩ : ∃ f, getStructFieldForKey fields key = some f := by
      cases hf : getStructFieldForKey fields key with
      | none => simp [Takes, hf] at htakes
      | some f => exact ⟨f, rfl⟩
    have hset : f.settable = false := by simpa [Takes, hf] using htakes
    refine .inr ⟨f.type, setField fields f i, f.ignores, by simp [getDictField, hf], ?_⟩
    intro v x
    rw [setField, hset]
    split
    · exact ⟨_, rfl⟩
    · exact ⟨_, rfl⟩
  | _ => exact .inl ⟨_, rfl⟩

end Strict

/-- What is stored without an error, and not in a `bool`, was the text of an integer. -/
theorem outcomeInt_stored (hg : g.kind ≠ .bool) {s buf : Str}
    (h : outcomeInt g s = some ((none, w), buf)) :
    g ≠ .string ∧ (∃ n, s = formatInt n) ∧ buf = [] := by
  rw [outcomeInt] at h
  split at h
  · next hc =>
    split at h
    · next hk =>
      have hstring : g ≠ .string := by rintro rfl; cases hk
      split at h
      · cases h
      · next n hp =>
        obtain ⟨hne, hall, -⟩ := parseInt_ok hp
        split at h
        · cases h
          exact ⟨hstring, ⟨_, (formatInt_of_checked hc hne hall).symm⟩, rfl⟩
        · cases h
    · next hk =>
      have hstring : g ≠ .string := by rintro rfl; cases hk
      split at h
      · cases h
      · next n hp =>
        obtain ⟨hne, hall, -⟩ := parseUint_ok hp
        have hsign := splitSign_of_digits hall
        split at h
        · cases h
          have hfmt := formatInt_of_checked hc (by rwa [hsign]) (by rwa [hsign])
          exact ⟨hstring, ⟨_, hfmt.symm⟩, rfl⟩
        · cases h
    · next hk => exact absurd hk hg
    · cases h
  · cases h

/-- **Integers** that are not stored in a `bool` are read only from their texts. -/
theorem parseInt_sound (hg : g.kind ≠ .bool)
    (h : parseInt g ⟨rest, o, [], 0⟩ = .ok ((none, w), d')) :
    g ≠ .string ∧ ∃ n, Consumed ⟨rest, o, [], 0⟩ (formatInt n ++ [101]) d' := by
  rcases exists_split 101 rest with hs | ⟨s, r, hs, rfl⟩
  · obtain ⟨o', ho⟩ := readInt_none (d := ⟨rest, o, [], 0⟩) hs
    rw [Decoder.parseInt, ho] at h
    cases h
  · have hp := parseInt_outcome (g := g) hs r o [] 0
    rw [nil_append, h] at hp
    cases hout : outcomeInt g s with
    | none =>
      rw [hout] at hp
      obtain ⟨e, he⟩ | ⟨d, hd, -⟩ := hp
      · cases he
      · cases hd
    | some w' =>
      obtain ⟨w', buf⟩ := w'
      rw [hout] at hp
      cases hp
      obtain ⟨hstring, ⟨n, rfl⟩, rfl⟩ := outcomeInt_stored hg hout
      exact ⟨hstring, n, by simp, by simp, rfl, rfl⟩

/-- **Strings** are read only from their texts. -/
theorem parseString_sound {T : τ → GoType τ} {b : UInt8} (hb : isDigit b)
    (h : parseString T g ⟨rest, o + 1, [b], 0⟩ = .ok ((none, w), d')) :
    ∃ s, s.length ≤ defaultDecodeMaxStrLen ∧ Consumed ⟨b :: rest, o, [], 0⟩ (reflectString s) d' ∧
      storeString T g s = (none, w) := by
  rw [parseString] at h
  rcases hp : parseStringLength ⟨rest, o + 1, [b], 0⟩ with e | ⟨e | n, d₁⟩
  · rw [hp] at h
    cases h
  · rw [hp] at h
    cases h
  · obtain ⟨u, r, rfl, hfmt, hlim, rfl⟩ := parseStringLength_sound hp
    have hn : 0 ≤ n := by
      by_contra hneg
      rw [formatInt, if_pos (not_le.mp hneg)] at hfmt
      rw [← (cons.inj hfmt).1] at hb
      exact absurd hb (by decide)
    simp only [hp, bind, Except.bind, readFull] at h
    by_cases hr : n.toNat ≤ r.length
    · simp only [if_pos hr, pure, Except.pure, Except.ok.injEq, Prod.mk.injEq] at h
      obtain ⟨hst, rfl⟩ := h
      refine ⟨r.take n.toNat, ?_, consumed_reflectString hfmt hn hr o 0, hst⟩
      have hmax : n ≤ defaultDecodeMaxStrLen := hlim
      rw [length_take]
      omega
    · rw [if_neg hr] at h
      by_cases hnil : r = []
      · rw [if_pos hnil] at h
        cases h
      · rw [if_neg hnil] at h
        cases h

/-! ### The loops -/

variable {T : τ → GoType τ}

/-- What has been read is the end symbol, or the text of a value. A string is not too long. -/
structure ReadText (g : GoType τ) (d : Decoder) (p : Parsed) (d' : Decoder) : Prop where
  ended : p.ok = false → Consumed d [101] d'
  value : p.ok = true → ∃ v, Consumed d (marshal v) d'
  short : g = .string → p.val.text.length ≤ defaultDecodeMaxStrLen

/-- With this fuel, strict types are read only from texts of values. -/
def ValueStrict (T : τ → GoType τ) (fuel : ℕ) : Prop :=
  ∀ {g : GoType τ} {d d' : Decoder} {ok : Bool} {w : Val}, Strict T g → d.buf = [] →
    d.maxStrLen = 0 → parseValue T fuel g d = .ok (⟨ok, none, w⟩, d') →
      ReadText g d ⟨ok, none, w⟩ d'

/-- With this fuel, the items of a list are read only from their texts. -/
def ItemsStrict (T : τ → GoType τ) (fuel : ℕ) : Prop :=
  ∀ {g : GoType τ} {d d' : Decoder} {ys zs : List Val}, Strict T g → d.buf = [] →
    d.maxStrLen = 0 → parseItems T fuel (g, none) ys d = .ok ((none, zs), d') →
    ∃ xs ws, zs = ys ++ ws ∧ Consumed d (marshalItems xs ++ [101]) d' ∧
      (g = .string → ∀ w ∈ ws, w.text.length ≤ defaultDecodeMaxStrLen)

/-- With this fuel, the only dictionary that is read is the empty one. -/
def DictStrict (T : τ → GoType τ) (fuel : ℕ) : Prop :=
  ∀ {g : GoType τ} {d d' : Decoder} {v w : Val}, Strict T g → d.buf = [] → d.maxStrLen = 0 →
    parseDict T fuel g v d = .ok ((none, w), d') → w = v ∧ Consumed d [101] d'

theorem itemsStrict_succ (hv : ValueStrict T fuel) (hl : ItemsStrict T fuel) :
    ItemsStrict T (fuel + 1) := by
  intro g d d' ys zs hg hbuf hmax h
  rw [parseItems, ← room, if_pos (room_none _)] at h
  split at h
  · cases h
  · cases h
  · next x d₁ hp =>
    cases h
    have hread := hv hg hbuf hmax hp
    exact ⟨[], [], by simp, hread.ended rfl, by simp⟩
  · next x d₁ hp =>
    have hread := hv hg hbuf hmax hp
    obtain ⟨v, hc⟩ := hread.value rfl
    obtain ⟨xs, ws, rfl, hc', hshort⟩ :=
      hl hg (hc.buf.trans hbuf) (hc.maxStrLen.trans hmax) h
    refine ⟨v :: xs, x :: ws, by simp, ?_, ?_⟩
    · rw [marshalItems, append_assoc]
      exact hc.trans hc'
    · rintro rfl w hw
      rcases mem_cons.mp hw with rfl | hw
      · exact hread.short rfl
      · exact hshort rfl w hw

theorem dictStrict_succ (hv : ValueStrict T fuel) : DictStrict T (fuel + 1) := by
  intro g d d' v w hg hbuf hmax h
  rw [parseDict] at h
  split at h
  · cases h
  · cases h
  · next x d₁ hp =>
    cases h
    exact ⟨rfl, (hv (strict_string T) hbuf hmax hp).ended rfl⟩
  · next key d₁ hp =>
    -- a key has been read, and there is no place for the value
    have hkey := (hv (strict_string T) hbuf hmax hp).short rfl
    obtain ⟨e, he⟩ | ⟨elem, get, ignores, hfield, hget⟩ := hg.field hkey
    · rw [he] at h
      cases h
    · simp only [hfield] at h
      split at h
      · cases h
      · next p d₂ hp₂ =>
        split at h
        · cases h
        · split at h
          · obtain ⟨e, he⟩ := hget v p.val
            rw [he] at h
            cases h
          · cases h

theorem storeList_none {err : Option Err} {xs : List Val} (h : storeList g err xs = (none, w)) :
    err = none ∧ (g = .string → xs = [w]) := by
  rw [storeList.eq_def] at h
  split at h
  · next hk => exact ⟨congrArg fst h, by rintro rfl; cases hk⟩
  · next hk => exact ⟨congrArg fst h, by rintro rfl; cases hk⟩
  · split at h
    · cases h
    · cases h
      exact ⟨rfl, fun _ => rfl⟩
    · cases h

theorem valueStrict_succ (hT : ∀ t, (T t).Basic) (hl : ItemsStrict T fuel)
    (hd : DictStrict T fuel) :
    ValueStrict T (fuel + 1) := by
  intro g d d' ok w hg hbuf hmax h
  obtain ⟨rest, o, buf, m⟩ := d
  obtain rfl : buf = [] := hbuf
  obtain rfl : m = 0 := hmax
  have hind := hg.basic.indirect (T := T)
  have hu : (g.indirect T).1.unmarshaler = none := by rw [hind]; exact hg.unmarshaler
  cases rest with
  | nil =>
    rw [parseValue_nil hu hg.basic.kind_ne] at h
    cases h
  | cons b r =>
    rw [parseValue_cons hu hg.basic.kind_ne, hind] at h
    dsimp only [id] at h
    by_cases h101 : b = 101
    · subst h101
      rw [if_pos rfl] at h
      cases h
      exact ⟨fun _ => ⟨rfl, rfl, rfl, rfl⟩, nofun, fun _ => by decide⟩
    rw [if_neg h101] at h
    by_cases h100 : b = 100
    · subst h100
      rw [if_pos rfl] at h
      split at h
      · cases h
      · next err v d₁ hp =>
        cases h
        obtain ⟨rfl, hc⟩ := hd hg rfl rfl hp
        exact ⟨nofun, fun _ => ⟨.dict [], hc.cons⟩, fun _ => by decide⟩
    rw [if_neg h100] at h
    by_cases h108 : b = 108
    · subst h108
      rw [if_pos rfl] at h
      split at h
      · cases h
      · next err xs d₁ hp =>
        obtain ⟨item, hitem, hstrict, hstring⟩ := hg.item hT
        rw [hitem] at hp
        simp only [Except.ok.injEq, Prod.mk.injEq, Parsed.mk.injEq] at h
        obtain ⟨⟨rfl, hst, hw⟩, rfl⟩ := h
        obtain ⟨rfl, hone⟩ := storeList_none (Prod.ext hst hw)
        obtain ⟨vs, _, rfl, hc, hshort⟩ := hl hstrict rfl rfl hp
        refine ⟨nofun, fun _ => ⟨.list vs, hc.cons⟩, fun h => ?_⟩
        exact hshort (hstring h) w (by rw [hone h]; exact mem_singleton_self w)
    rw [if_neg h108] at h
    by_cases h105 : b = 105
    · subst h105
      rw [if_pos rfl] at h
      split at h
      · cases h
      · next err v d₁ hp =>
        cases h
        obtain ⟨hstring, n, hc⟩ := parseInt_sound hg.kind_ne_bool hp
        refine ⟨nofun, fun _ => ⟨.int (.ofInt n), ?_⟩, fun h => absurd h hstring⟩
        rw [marshal, Number.toInt_ofInt]
        exact hc.cons
    rw [if_neg h105] at h
    by_cases hb : isDigit b
    · rw [if_pos hb] at h
      split at h
      · cases h
      · next err v d₁ hp =>
        cases h
        obtain ⟨s, hlen, hc, hst⟩ := parseString_sound hb hp
        refine ⟨nofun, fun _ => ⟨.str s, hc⟩, fun h => ?_⟩
        subst h
        cases hst
        exact hlen
    · rw [if_neg hb] at h
      cases h

/-- **Strict types** are read only from texts of values. -/
theorem strict_sound (hT : ∀ t, (T t).Basic) (fuel : ℕ) :
    ValueStrict T fuel ∧ ItemsStrict T fuel ∧ DictStrict T fuel := by
  induction fuel with
  | zero =>
    refine ⟨?_, ?_, ?_⟩
    · intro g d d' ok w _ _ _ h
      rw [parseValue] at h
      cases h
    · intro g d d' ys zs _ _ _ h
      rw [parseItems] at h
      cases h
    · intro g d d' v w _ _ _ h
      rw [parseDict] at h
      cases h
  | succ fuel ih =>
    obtain ⟨hv, hl, hd⟩ := ih
    exact ⟨valueStrict_succ hT hl hd, itemsStrict_succ hv hl, dictStrict_succ hv⟩

/-! ## The types that accept only bencode -/

/-- **Acceptance.** Of the types made of `bool`, integers, strings, `bencode.Bytes`, slices and
structs, those that are not loose accept only bencode, and the others accept more. -/
theorem strict_iff (hT : ∀ t, (T t).Basic) {g : GoType τ} (hg : g.Basic) :
    (∀ b v, unmarshal T g b = .ok v → IsText b) ↔ ¬ Loose T g := by
  constructor
  · intro h hl
    obtain ⟨b, hb⟩ := hl.misread hT
    obtain ⟨w, buf, hw⟩ := hb.accepted (2 * b.length + 2) (by omega) [] 0
    rw [append_nil] at hw
    have hok : unmarshal T g b = .ok w := unmarshal_ok_iff.mpr ⟨_, decode_ok_iff.mpr hw, rfl⟩
    obtain ⟨v, hv⟩ := h b w hok
    exact hb.noText [] v [] (by simp [hv])
  · intro hl b w h
    obtain ⟨d, hd, hrest⟩ := unmarshal_ok_iff.mp h
    have hread := (strict_sound hT _).1 ⟨hg, hl⟩ rfl rfl (decode_ok_iff.mp hd)
    obtain ⟨v, hc⟩ := hread.value rfl
    exact ⟨v, by simpa [hrest] using hc.rest.symm⟩

/-- A `[]string` accepts only bencode. -/
theorem strict_strings :
    ¬ Loose (fun _ : Unit => .string) ⟨.slice (), none⟩ ∧
      ∀ b v, unmarshal (fun _ : Unit => .string) ⟨.slice (), none⟩ b = .ok v → IsText b := by
  have hstrict : ¬ Loose (fun _ : Unit => .string) ⟨.slice (), none⟩ := by
    rintro ⟨⟩
    contradiction
  exact ⟨hstrict, (strict_iff (fun _ => .string) (.slice ())).mpr hstrict⟩

/-- A field `A` of type `string`. -/
def fieldA : Field Unit := ⟨[65], [], (), true, none⟩

/-- `ie` is accepted for a `bool` and for a `bencode.Bytes`, and `dl1:Ae1:xe` for a struct that has
a field `A`. None of them is bencode. -/
theorem accepts_more :
    ((unmarshal (fun _ : Unit => .string) ⟨.bool, none⟩ [105, 101]).isOk ∧
      (unmarshal (fun _ : Unit => .string) (.bytes ()) [105, 101]).isOk ∧ ¬ IsText [105, 101]) ∧
    (unmarshal (fun _ : Unit => .string) ⟨.struct [fieldA], none⟩
        [100, 108, 49, 58, 65, 101, 49, 58, 120, 101]).isOk ∧
      ¬ IsText [100, 108, 49, 58, 65, 101, 49, 58, 120, 101] := by
  refine ⟨⟨by decide +kernel, by decide +kernel, ?_⟩, by decide +kernel, ?_⟩
  · rintro ⟨v, hv⟩
    exact noText_ie [] v [] (by simp [hv])
  · rintro ⟨v, hv⟩
    exact noText_dict_list _ v [] (by rw [hv, append_nil])

end ReliableBT.Bencode
