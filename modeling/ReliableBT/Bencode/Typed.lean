import ReliableBT.Bencode.Buffer

/-!
# What decoding into a Go type comes to

`outcome T g v buf` says what becomes of the value `v` in a variable of type `g`, when the scratch
buffer holds `buf`: the value is read to its end, with an `UnmarshalTypeError` or without, and the
variable and the buffer are then as it says; or it is `none`, and something in `v` was not read to
its end. It is recursive in the value, and says nothing about texts.

* `parseValue_outcome`: if there is an outcome, `parseValue` reads exactly the text of the value and
  returns it.
* `parseValue_lost`: if there is none and no type has a field with `ignore_unmarshal_type_error`,
  `parseValue` panics or returns an error, and an `UnmarshalTypeError` only with a part of the value
  left to read.
-/

namespace ReliableBT.Bencode

open Decimal Decoder Nat Except

variable {τ : Type}

/-! ## Outcomes -/

/-- An integer, whose text is in the buffer. -/
def outcomeInt (g : GoType τ) (s : Str) : Option ((Option Err × Val) × Str) :=
  if checkBufferedInt s then
    match g.kind with
    | .int bits =>
      match Decimal.parseInt s with
      | .error _ => none
      | .ok n =>
        if -2 ^ (bits - 1) ≤ n ∧ n < 2 ^ (bits - 1) then some ((none, .int n), [])
        else some ((some (.unmarshalType .int), .zero), s)
    | .uint bits =>
      match parseUint s with
      | .error _ => none
      | .ok n =>
        if n < 2 ^ bits then some ((none, .int n), [])
        else some ((some (.unmarshalType .int), .zero), s)
    | .bool => some ((none, .bool (decide (s ≠ [48]))), [])
    | _ => some ((some (.unmarshalType .int), .zero), s)
  else none

/-- The cases that do not depend on the kind of value: an `Unmarshaler` leaves the text of the value
in the buffer, and an `interface{}` takes everything if the buffer is empty. -/
def outcomeAt (T : τ → GoType τ) (g : GoType τ) (v : Value) (buf : Str)
    (other : GoType τ → Option ((Option Err × Val) × Str)) :
    Option ((Option Err × Val) × Str) :=
  let t := (g.indirect T).1
  let put := (g.indirect T).2
  match t.unmarshaler, t.kind with
  | some unmarshalBencode, _ =>
    (unmarshalBencode (marshal v)).toOption.map fun w => ((none, put w), marshal v)
  | none, .iface =>
    if buf = [] ∨ hollow v then some ((none, put (.iface v)), buf) else none
  | none, _ => (other t).map fun w => ((w.1.1, put w.1.2), w.2)

section
variable {T : τ → GoType τ} {g : GoType τ} {v : Value} {buf : Str}
  {other : GoType τ → Option ((Option Err × Val) × Str)}

theorem outcomeAt_unmarshaler {f : Str → Except Refusal Val}
    (hu : (g.indirect T).1.unmarshaler = some f) :
    outcomeAt T g v buf other =
      (f (marshal v)).toOption.map fun w => ((none, (g.indirect T).2 w), marshal v) := by
  simp only [outcomeAt, hu]

theorem outcomeAt_iface (hu : (g.indirect T).1.unmarshaler = none)
    (hk : (g.indirect T).1.kind = .iface) :
    outcomeAt T g v buf other =
      if buf = [] ∨ hollow v then some ((none, (g.indirect T).2 (.iface v)), buf) else none := by
  simp only [outcomeAt, hu, hk]

theorem outcomeAt_other (hu : (g.indirect T).1.unmarshaler = none)
    (hk : (g.indirect T).1.kind ≠ .iface) :
    outcomeAt T g v buf other =
      (other (g.indirect T).1).map fun w => ((w.1.1, (g.indirect T).2 w.1.2), w.2) := by
  simp only [outcomeAt, hu]

end

/-- There is a place for one more item. -/
def room (len : Option ℕ) (ys : List Val) : Bool := len.all fun n => decide (ys.length < n)

theorem room_none (ys : List Val) : room none ys := rfl

mutual

/-- What becomes of a value: the error and the variable, and the buffer. -/
def outcome (T : τ → GoType τ) : GoType τ → Value → Str → Option ((Option Err × Val) × Str)
  | g, .int n, buf => outcomeAt T g (.int n) buf fun t => outcomeInt t (buf ++ formatInt n.toInt)
  | g, .str s, buf => outcomeAt T g (.str s) buf fun t => some (storeString T t s, [])
  | g, .list xs, buf =>
    outcomeAt T g (.list xs) buf fun t =>
      (outcomeItems T (itemType T t) xs [] buf).map fun w => (storeList t none w.1, w.2)
  | g, .dict es, buf =>
    outcomeAt T g (.dict es) buf fun t =>
      (outcomeEntries T t es .zero buf).map fun w => ((none, w.1), w.2)

/-- The items of a list, each of which has to be stored, and the end symbol: it is no value for an
`interface{}`, and clears the buffer for an `Unmarshaler`. -/
def outcomeItems (T : τ → GoType τ) :
    GoType τ × Option ℕ → List Value → List Val → Str → Option (List Val × Str)
  | (g, len), [], ys, buf =>
    if room len ys then
      match (g.indirect T).1.kind, (g.indirect T).1.unmarshaler with
      | .iface, _ => none
      | _, some _ => some (ys, [])
      | _, none => some (ys, buf)
    else some (ys, buf)
  | (g, len), x :: xs, ys, buf =>
    if room len ys then
      match outcome T g x buf with
      | some ((none, y), buf) => outcomeItems T (g, len) xs (ys ++ [y]) buf
      | _ => none
    else if buf = [] ∨ hollow x then outcomeItems T (g, len) xs ys buf
    else none

/-- The entries of a dictionary, each of which has to be stored, or ignored. A key clears the
buffer. -/
def outcomeEntries (T : τ → GoType τ) :
    GoType τ → List (Str × Value) → Val → Str → Option (Val × Str)
  | _, [], v, buf => some (v, buf)
  | g, (key, x) :: es, v, _ =>
    match getDictField g key with
    | .error _ => none
    | .ok ⟨none, _, _⟩ => outcomeEntries T g es v []
    | .ok ⟨some elem, get, ignores⟩ =>
      match outcome T (T elem) x [] with
      | none => none
      | some ((err, w), buf) =>
        if err.isSome ∧ ¬ ignores then none
        else
          match get v w with
          | .error _ => none
          | .ok v => outcomeEntries T g es v buf

end

/-! ## The cases of `parseValue` -/

namespace Decoder

section Cases
variable {T : τ → GoType τ} {g : GoType τ} (hu : (g.indirect T).1.unmarshaler = none)
  (hk : (g.indirect T).1.kind ≠ .iface)
include hu hk

theorem parseValue_cons (fuel : ℕ) (b : UInt8) (rest : Str) (o : ℕ) (buf : Str) (m : Int64) :
    parseValue T (fuel + 1) g ⟨b :: rest, o, buf, m⟩ =
      if b = 101 then .ok (⟨false, none, (g.indirect T).2 .zero⟩, ⟨rest, o + 1, buf, m⟩)
      else if b = 100 then
        match parseDict T fuel (g.indirect T).1 .zero ⟨rest, o + 1, buf, m⟩ with
        | .error e => .error e
        | .ok ((err, v), d) => .ok (⟨true, err, (g.indirect T).2 v⟩, d)
      else if b = 108 then
        match parseItems T fuel (itemType T (g.indirect T).1) [] ⟨rest, o + 1, buf, m⟩ with
        | .error e => .error e
        | .ok ((err, xs), d) =>
          .ok (⟨true, (storeList (g.indirect T).1 err xs).1,
            (g.indirect T).2 (storeList (g.indirect T).1 err xs).2⟩, d)
      else if b = 105 then
        match parseInt (g.indirect T).1 ⟨rest, o + 1, buf, m⟩ with
        | .error e => .error e
        | .ok ((err, v), d) => .ok (⟨true, err, (g.indirect T).2 v⟩, d)
      else if isDigit b then
        match parseString T (g.indirect T).1 ⟨rest, o + 1, [b], m⟩ with
        | .error e => .error e
        | .ok ((err, v), d) => .ok (⟨true, err, (g.indirect T).2 v⟩, d)
      else .error (.syntaxError o (.unknownValueType b)) := by
  rw [parseValue]
  simp only [parseUnmarshaler, hu]
  cases hkind : (g.indirect T).1.kind with
  | iface => exact absurd hkind hk
  | _ => rfl

theorem parseValue_nil (fuel : ℕ) (o : ℕ) (buf : Str) (m : Int64) :
    parseValue T (fuel + 1) g ⟨[], o, buf, m⟩ =
      .ok (⟨false, some .eof, (g.indirect T).2 .zero⟩, ⟨[], o, buf, m⟩) := by
  rw [parseValue]
  simp only [parseUnmarshaler, hu]

end Cases

variable {T : τ → GoType τ} {g : GoType τ} {m : Int64} {v : Value} {fuel : ℕ} {s : Str}
  {ys : List Val} {buf buf' : Str} {e : Err} {other : GoType τ → Option ((Option Err × Val) × Str)}
  {err : Option Err} {w : Val}

theorem parseValue_end (hk : (g.indirect T).1.kind ≠ .iface) (fuel : ℕ) (r : Str) (o : ℕ)
    (buf : Str) (m : Int64) :
    parseValue T (fuel + 1) g ⟨101 :: r, o, buf, m⟩ =
      .ok (⟨false, none, (g.indirect T).2 .zero⟩,
        ⟨r, o + 1, if (g.indirect T).1.unmarshaler.isSome then [] else buf, m⟩) := by
  cases hu : (g.indirect T).1.unmarshaler with
  | none => simp [parseValue_cons hu hk]
  | some f =>
    rw [parseValue]
    simp [parseUnmarshaler, hu, readOneValue]

theorem parseValue_end_iface (hk : (g.indirect T).1.kind = .iface) (fuel : ℕ) (r : Str) (o : ℕ)
    (buf : Str) (m : Int64) :
    parseValue T (fuel + 1) g ⟨101 :: r, o, buf, m⟩ = .error .reflectValue := by
  cases hu : (g.indirect T).1.unmarshaler with
  | none =>
    rw [parseValue]
    simp [parseUnmarshaler, hu, hk, parseValueInterface_end]
  | some f =>
    rw [parseValue]
    simp [parseUnmarshaler, hu, readOneValue, hk, parseValueInterface_end]

theorem parseValue_unmarshaler {f : Str → Except Refusal Val}
    (hu : (g.indirect T).1.unmarshaler = some f) (hv : WellFormed (strLimit m) v)
    (hf : 2 * (marshal v).length ≤ fuel + 1) (r : Str) (o : ℕ) (buf : Str) :
    parseValue T fuel g ⟨marshal v ++ r, o, buf, m⟩ =
      match f (marshal v) with
      | .error refusal => .error refusal.err
      | .ok w => .ok (⟨true, none, (g.indirect T).2 w⟩,
          ⟨r, o + (marshal v).length, marshal v, m⟩) := by
  obtain ⟨fuel, rfl⟩ : ∃ k, fuel = k + 1 :=
    ⟨fuel - 1, by have := length_marshal_pos v; omega⟩
  rw [parseValue]
  simp only [parseUnmarshaler, hu, (text_marshal v hv).readOneValue _ hf, List.nil_append]
  cases f (marshal v) <;> rfl

theorem parseValue_iface_eq (hu : (g.indirect T).1.unmarshaler = none)
    (hk : (g.indirect T).1.kind = .iface) (fuel : ℕ) (d : Decoder) :
    parseValue T (fuel + 1) g d =
      match parseValueInterface (fuel + 1) d with
      | .error e => .error e
      | .ok (none, _) => .error .reflectValue
      | .ok (some v, d) => .ok (⟨true, none, (g.indirect T).2 (.iface v)⟩, d) := by
  rw [parseValue]
  rcases hp : parseValueInterface (fuel + 1) d with e | ⟨_ | v, d'⟩ <;>
    simp only [parseUnmarshaler, hu, hk, hp]

/-! ## Integers and strings -/

/-- **Integers** come to what `outcomeInt` says of what is in the buffer with their text. -/
theorem parseInt_outcome (hs : 101 ∉ s) (r : Str) (o : ℕ) (buf : Str) (m : Int64) :
    match outcomeInt g (buf ++ s) with
    | some (w, buf') =>
      parseInt g ⟨s ++ 101 :: r, o, buf, m⟩ = .ok (w, ⟨r, o + (s.length + 1), buf', m⟩)
    | none =>
      (∃ e, parseInt g ⟨s ++ 101 :: r, o, buf, m⟩ = .error e) ∨
        ∃ d, parseInt g ⟨s ++ 101 :: r, o, buf, m⟩ =
          .ok ((some .invalidLeadingDigit, .zero), d) ∧ d.rest = r := by
  rw [parseInt, readInt_eq hs, outcomeInt]
  by_cases hc : checkBufferedInt (buf ++ s)
  · simp only [hc, if_true, bind, Except.bind]
    cases g.kind with
    | int bits =>
      cases hp : Decimal.parseInt (buf ++ s) with
      | error e => exact .inl ⟨_, rfl⟩
      | ok n =>
        by_cases hr : -2 ^ (bits - 1) ≤ n ∧ n < 2 ^ (bits - 1)
        · simp only [if_pos hr]
          rfl
        · simp only [if_neg hr]
          rfl
    | uint bits =>
      cases hp : parseUint (buf ++ s) with
      | error e => exact .inl ⟨_, rfl⟩
      | ok n =>
        by_cases hr : n < 2 ^ bits
        · simp only [if_pos hr]
          rfl
        · simp only [if_neg hr]
          rfl
    | _ => rfl
  · rw [if_neg hc, if_neg hc]
    exact .inr ⟨_, rfl, rfl⟩

theorem readFull_append (s r : Str) (o : ℕ) (buf : Str) (m : Int64) :
    readFull s.length ⟨s ++ r, o, buf, m⟩ = .ok (s, ⟨r, o + s.length, buf, m⟩) := by
  rw [readFull, if_pos (by simp)]
  simp

/-- **Strings** are read to their end, whatever the target. -/
theorem parseString_reflectString (T : τ → GoType τ) (g : GoType τ) {b : UInt8} {u : Str}
    (h : formatNat s.length = b :: u) (r : Str) (o : ℕ) (hs : s.length ≤ strLimit m) :
    parseString T g ⟨u ++ 58 :: (s ++ r), o, [b], m⟩ =
      .ok (storeString T g s, ⟨r, o + (u.length + 1) + s.length, [], m⟩) := by
  rw [parseString, parseStringLength_formatNat h _ _ hs]
  simp only [bind, Except.bind, Int.toNat_natCast, readFull_append]
  rfl

theorem parseValue_str (hu : (g.indirect T).1.unmarshaler = none)
    (hk : (g.indirect T).1.kind ≠ .iface) (hs : s.length ≤ strLimit m) (fuel : ℕ) (r : Str) (o : ℕ)
    (buf : Str) :
    parseValue T (fuel + 1) g ⟨reflectString s ++ r, o, buf, m⟩ =
      .ok (⟨true, (storeString T (g.indirect T).1 s).1,
        (g.indirect T).2 (storeString T (g.indirect T).1 s).2⟩,
        ⟨r, o + (reflectString s).length, [], m⟩) := by
  obtain ⟨b, u, hbu, hb⟩ := formatNat_cons s.length
  have hne : ∀ c : UInt8, ¬ isDigit c → b ≠ c := fun c hc h => hc (h ▸ hb)
  have htext : reflectString s = b :: (u ++ 58 :: s) := by rw [reflectString, hbu]; rfl
  rw [htext, List.cons_append, parseValue_cons hu hk, if_neg (hne 101 (by decide)),
    if_neg (hne 100 (by decide)), if_neg (hne 108 (by decide)), if_neg (hne 105 (by decide)),
    if_pos hb, List.append_assoc, List.cons_append, parseString_reflectString T _ hbu r _ hs]
  exact ok_offset (by simp; omega)

/-- **Keys** are strings, and clear the buffer. -/
theorem parseValue_key (T : τ → GoType τ) {k : Str} (hk : k.length ≤ strLimit m) (fuel : ℕ)
    (r : Str) (o : ℕ) (buf : Str) :
    parseValue T (fuel + 1) .string ⟨reflectString k ++ r, o, buf, m⟩ =
      .ok (⟨true, none, .str k⟩, ⟨r, o + (reflectString k).length, [], m⟩) :=
  parseValue_str (g := .string) rfl (by simp [GoType.indirect, GoType.string]) hk fuel r o buf

/-! ## Errors of an outcome -/

theorem storeList_isUnmarshalType (h : (storeList g none ys).1 = some e) : e.isUnmarshalType := by
  rcases ys with _ | ⟨y, _ | ⟨z, ys⟩⟩
  all_goals
    cases hk : g.kind <;> simp only [storeList, hk] at h <;> cases h <;> rfl

/-- An outcome comes from an `Unmarshaler`, from an `interface{}`, or from the other cases. -/
theorem outcomeAt_some (h : outcomeAt T g v buf other = some ((err, w), buf')) :
    (err = none ∧ (buf' = marshal v ∨ buf' = buf)) ∨
      (g.indirect T).1.unmarshaler = none ∧
        ∃ w', other (g.indirect T).1 = some ((err, w'), buf') := by
  rw [outcomeAt] at h
  split at h
  · obtain ⟨w', -, h⟩ := Option.map_eq_some_iff.mp h
    simp only [Prod.mk.injEq] at h
    exact .inl ⟨h.1.1.symm, .inl h.2.symm⟩
  · split at h
    · simp only [Option.some.injEq, Prod.mk.injEq] at h
      exact .inl ⟨h.1.1.symm, .inr h.2.symm⟩
    · cases h
  · next hu _ =>
    obtain ⟨⟨⟨e', w'⟩, b'⟩, h', h⟩ := Option.map_eq_some_iff.mp h
    simp only [Prod.mk.injEq] at h
    obtain ⟨⟨rfl, -⟩, rfl⟩ := h
    exact .inr ⟨hu, w', h'⟩

theorem outcome_isUnmarshalType (h : outcome T g v buf = some ((some e, w), buf')) :
    e.isUnmarshalType := by
  cases v
  all_goals
    rw [outcome] at h
    obtain ⟨-, w', h⟩ := (outcomeAt_some h).resolve_left (by simp)
  case int n =>
    rw [outcomeInt] at h
    repeat' split at h
    all_goals first | (cases h; done) | (cases h; rfl)
  case str s =>
    simp only [Option.some.injEq, Prod.mk.injEq] at h
    obtain ⟨h, -⟩ := h
    rw [storeString] at h
    repeat' split at h
    all_goals first | (cases h; done) | (cases h; rfl)
  case list xs =>
    obtain ⟨⟨ys, b⟩, -, h⟩ := Option.map_eq_some_iff.mp h
    simp only [Prod.mk.injEq] at h
    exact storeList_isUnmarshalType (congrArg Prod.fst h.1)
  case dict es =>
    obtain ⟨⟨ys, b⟩, -, h⟩ := Option.map_eq_some_iff.mp h
    simp at h

end Decoder

/-! ## Types without ignored errors -/

/-- The types of the variables inside a variable of the type that the decoder stores to: it does not
look into an `Unmarshaler`. -/
def GoType.elems (g : GoType τ) : List τ :=
  match g.kind, g.unmarshaler with
  | .ptr elem, _ => [elem]
  | .slice elem, none => [elem]
  | .array _ elem, none => [elem]
  | .map elem, none => [elem]
  | .struct fields, none => fields.map Field.type
  | _, _ => []

/-- No field of the type itself ignores type errors. -/
def GoType.Untagged (g : GoType τ) : Prop :=
  g.unmarshaler = none → ∀ fields, g.kind = .struct fields → ∀ f ∈ fields, f.ignores = false

/-- No field of the type, or of a type it refers to, ignores type errors. -/
def TagFree (T : τ → GoType τ) (g : GoType τ) : Prop :=
  ∀ g', Relation.ReflTransGen (fun g g' => ∃ e ∈ g.elems, g' = T e) g g' → g'.Untagged

namespace TagFree
variable {T : τ → GoType τ} {g : GoType τ}

theorem self (h : TagFree T g) : g.Untagged := h g .refl

theorem elem (h : TagFree T g) {e : τ} (he : e ∈ g.elems) : TagFree T (T e) :=
  fun g' hg' => h g' (.head ⟨e, he, rfl⟩ hg')

theorem indirect (h : TagFree T g) : TagFree T (g.indirect T).1 := by
  rw [GoType.indirect]
  split
  · next e hk => exact h.elem (by simp [GoType.elems, hk])
  · exact h

theorem item (h : TagFree T g) (hu : g.unmarshaler = none) : TagFree T (itemType T g).1 := by
  rw [itemType]
  split
  · next e hk => exact h.elem (by simp [GoType.elems, hk, hu])
  · next n e hk => exact h.elem (by simp [GoType.elems, hk, hu])
  · exact h

theorem field (h : TagFree T g) (hu : g.unmarshaler = none) {key : Str} {elem : τ}
    {get : Val → Val → Except Err Val}
    {ignores : Bool} (hf : getDictField g key = .ok ⟨some elem, get, ignores⟩) :
    ignores = false ∧ TagFree T (T elem) := by
  rw [getDictField] at hf
  split at hf
  · next e hk =>
    simp only [ok.injEq, DictField.mk.injEq, Option.some.injEq] at hf
    obtain ⟨rfl, -, rfl⟩ := hf
    exact ⟨rfl, h.elem (by simp [GoType.elems, hk, hu])⟩
  · next fields hk =>
    split at hf
    · next f i hfind =>
      simp only [ok.injEq, DictField.mk.injEq, Option.some.injEq] at hf
      obtain ⟨rfl, -, rfl⟩ := hf
      have hmem : f ∈ fields := by
        have := List.mem_of_find?_eq_some hfind
        rw [List.mem_reverse] at this
        exact (List.mem_zipIdx' this).2 ▸ List.getElem_mem _
      exact ⟨h.self hu fields hk f hmem,
        h.elem (by simpa [GoType.elems, hk, hu] using ⟨f, hmem, rfl⟩)⟩
    · simp at hf
  · cases hf

end TagFree

/-! ## The buffer after a value -/

variable {T : τ → GoType τ} {buf buf' : Str} {g : GoType τ} {w : Val}

theorem outcomeItems_raw {xs : List Value} {item : GoType τ × Option ℕ}
    (h : ∀ x ∈ xs, ∀ {buf buf' : Str} {w : Val}, Raw buf →
      outcome T item.1 x buf = some ((none, w), buf') → Raw buf') {ys zs : List Val}
    (hraw : Raw buf) (hout : outcomeItems T item xs ys buf = some (zs, buf')) : Raw buf' := by
  obtain ⟨g, len⟩ := item
  induction xs generalizing ys buf with
  | nil =>
    rw [outcomeItems] at hout
    repeat' split at hout
    all_goals first | (cases hout; done) | (cases hout; first | exact hraw | exact .nil)
  | cons x xs ih =>
    have hxs := fun y hy => @h y (List.mem_cons_of_mem x hy)
    rw [outcomeItems] at hout
    split at hout
    · split at hout
      · next y b hx => exact ih (h x (List.mem_cons_self ..) hraw hx) hxs hout
      · cases hout
    · split at hout
      · exact ih hraw hxs hout
      · cases hout

theorem outcomeEntries_raw {T : τ → GoType τ} {es : List (Str × Value)} {g : GoType τ}
    (hg : TagFree T g) (hu : g.unmarshaler = none)
    (h : ∀ e ∈ es, ∀ {t : GoType τ} {buf' : Str} {w : Val}, TagFree T t →
      outcome T t e.2 [] = some ((none, w), buf') → Raw buf')
    {v v' : Val} {buf buf' : Str} (hraw : Raw buf)
    (hout : outcomeEntries T g es v buf = some (v', buf')) : Raw buf' := by
  induction es generalizing v buf with
  | nil =>
    rw [outcomeEntries] at hout
    cases hout
    exact hraw
  | cons e es ih =>
    obtain ⟨k, x⟩ := e
    have ih {v buf} := @ih (fun y hy => h y (List.mem_cons_of_mem _ hy)) v buf
    rw [outcomeEntries] at hout
    split at hout
    · cases hout
    · exact ih .nil hout
    · next elem get ignores hf =>
      obtain ⟨rfl, helem⟩ := hg.field hu hf
      split at hout
      · cases hout
      · next err w b hx =>
        split at hout
        · cases hout
        · next herr =>
          obtain rfl : err = none := by simpa using herr
          split at hout
          · cases hout
          · exact ih (h _ (List.mem_cons_self ..) helem hx) hout

theorem outcomeAt_raw {v : Value} {other : GoType τ → Option ((Option Err × Val) × Str)}
    (hraw : Raw buf) (h : outcomeAt T g v buf other = some ((none, w), buf'))
    (hother : (g.indirect T).1.unmarshaler = none →
      ∀ w', other (g.indirect T).1 = some ((none, w'), buf') → Raw buf') : Raw buf' := by
  rcases outcomeAt_some h with ⟨-, rfl | rfl⟩ | ⟨hu, w', h⟩
  · exact .inr ⟨v, rfl⟩
  · exact hraw
  · exact hother hu w' h

theorem outcome_raw (v : Value) (hg : TagFree T g) (hraw : Raw buf)
    (h : outcome T g v buf = some ((none, w), buf')) : Raw buf' := by
  induction v generalizing g buf buf' w
  all_goals
    rw [outcome] at h
    refine outcomeAt_raw hraw h ?_
    clear h
    intro hu w' h
  case int n =>
    rw [outcomeInt] at h
    repeat' split at h
    all_goals first | (cases h; done) | (cases h; exact .nil)
  case str s =>
    simp only [Option.some.injEq, Prod.mk.injEq] at h
    exact h.2 ▸ .nil
  case list xs ih =>
    obtain ⟨⟨ys, b⟩, hys, h⟩ := Option.map_eq_some_iff.mp h
    simp only [Prod.mk.injEq] at h
    rw [← h.2]
    exact outcomeItems_raw (fun x hx _ _ _ hraw h => ih x hx (hg.indirect.item hu) hraw h) hraw hys
  case dict es ih =>
    obtain ⟨⟨v', b⟩, hes, h⟩ := Option.map_eq_some_iff.mp h
    simp only [Prod.mk.injEq] at h
    rw [← h.2]
    exact outcomeEntries_raw hg.indirect hu (fun e he _ _ _ ht h => ih e he ht .nil h) hraw hes

/-! ## Values that are read to their end, and others -/

namespace Decoder

/-- A panic, or an error that was returned, other than `io.EOF`, at a point that `p` says. -/
def Breaks {α : Type} (err : α → Option Err) (p : Err → Decoder → Prop)
    (x : Except Err (α × Decoder)) : Prop :=
  ∀ a d, x = .ok (a, d) → ∃ e, err a = some e ∧ e ≠ .eof ∧ p e d

section Breaks
variable {α : Type} {err : α → Option Err} {p : Err → Decoder → Prop} {e : Err}

theorem Breaks.error : Breaks err p (.error e) := by
  intro a d h
  cases h

theorem Breaks.ok {a : α} {d : Decoder} (ha : err a = some e) (he : e ≠ .eof) (hp : p e d) :
    Breaks err p (.ok (a, d)) := by
  rintro _ _ ⟨⟩
  exact ⟨e, ha, he, hp⟩

end Breaks

/-- A value that is not read to its end, if `r` follows it. -/
def Lost (r : Str) : Except Err (Parsed × Decoder) → Prop :=
  Breaks Parsed.err fun e d =>
    r.length ≤ d.rest.length ∧ (e.isUnmarshalType → r.length < d.rest.length)

/-- Items or entries that are not read to the end. -/
def Stuck {α : Type} (r : Str) : Except Err ((Option Err × α) × Decoder) → Prop :=
  Breaks (fun a => a.1) fun _ d => r.length < d.rest.length

variable {T : τ → GoType τ} {m : Int64} {buf buf' : Str} {g : GoType τ} {v : Value} {w : Val}
  {r : Str} {o fuel : ℕ} {e : Err} {err : Option Err} {ignores : Bool}

theorem Err.ne_eof (h : e.isUnmarshalType) : e ≠ .eof := by
  rintro rfl
  cases h

/-- What `parseValue` makes of a value, with enough fuel: with an outcome, it is read to its end and
this is returned; without, it is not read to its end. -/
def Settles (T : τ → GoType τ) (m : Int64) (v : Value) : Prop :=
  ∀ (g : GoType τ) (buf : Str) (fuel : ℕ), 2 * (marshal v).length ≤ fuel + 1 → ∀ r o,
    match outcome T g v buf with
    | some ((err, w), buf') =>
      parseValue T fuel g ⟨marshal v ++ r, o, buf, m⟩ =
        .ok (⟨true, err, w⟩, ⟨r, o + (marshal v).length, buf', m⟩)
    | none =>
      TagFree T g → Raw buf → Lost r (parseValue T fuel g ⟨marshal v ++ r, o, buf, m⟩)

/-- With enough fuel, a value that has an outcome is read to its end. -/
def Completes (T : τ → GoType τ) (m : Int64) (v : Value) : Prop :=
  ∀ {g : GoType τ} {buf buf' : Str} {err : Option Err} {w : Val},
    outcome T g v buf = some ((err, w), buf') → ∀ fuel, 2 * (marshal v).length ≤ fuel + 1 → ∀ r o,
    parseValue T fuel g ⟨marshal v ++ r, o, buf, m⟩ =
      .ok (⟨true, err, w⟩, ⟨r, o + (marshal v).length, buf', m⟩)

theorem Settles.completes (h : Settles T m v) : Completes T m v := by
  intro g buf buf' err w hout fuel hf r o
  have hv := h g buf fuel hf r o
  rwa [hout] at hv

theorem Settles.lost (h : Settles T m v) (hg : TagFree T g) (hraw : Raw buf)
    (hout : outcome T g v buf = none) (fuel : ℕ) (hf : 2 * (marshal v).length ≤ fuel + 1) (r : Str)
    (o : ℕ) : Lost r (parseValue T fuel g ⟨marshal v ++ r, o, buf, m⟩) := by
  have hv := h g buf fuel hf r o
  rw [hout] at hv
  exact hv hg hraw

/-- **Items** are read to the end of the list just when they have an outcome. -/
theorem parseItems_settles {xs : List Value}
    (hxs : ∀ x ∈ xs, Settles T m x ∧ WellFormed (strLimit m) x) (item : GoType τ × Option ℕ)
    (ys : List Val) (buf : Str) (fuel : ℕ) (hf : 2 * (marshalItems xs).length + 2 ≤ fuel) (r : Str)
    (o : ℕ) :
    match outcomeItems T item xs ys buf with
    | some (zs, buf') =>
      parseItems T fuel item ys ⟨marshalItems xs ++ 101 :: r, o, buf, m⟩ =
        .ok ((none, zs), ⟨r, o + (marshalItems xs).length + 1, buf', m⟩)
    | none =>
      TagFree T item.1 → Raw buf →
        Stuck r (parseItems T fuel item ys ⟨marshalItems xs ++ 101 :: r, o, buf, m⟩) := by
  obtain ⟨g, len⟩ := item
  induction xs generalizing ys buf fuel o with
  | nil =>
    obtain ⟨fuel, rfl⟩ : ∃ k, fuel = k + 2 := ⟨fuel - 2, by omega⟩
    rw [outcomeItems, marshalItems, List.nil_append, parseItems, ← room]
    by_cases hroom : room len ys
    · rw [if_pos hroom, if_pos hroom]
      by_cases hk : (g.indirect T).1.kind = .iface
      · rw [parseValue_end_iface hk]
        simp only [hk]
        exact fun _ _ => .error
      · rw [parseValue_end hk]
        cases hu : (g.indirect T).1.unmarshaler <;> simp
    · rw [if_neg hroom, if_neg hroom, parseValueInterface_end]
      simp
  | cons x xs ih =>
    obtain ⟨fuel, rfl⟩ : ∃ k, fuel = k + 1 := ⟨fuel - 1, by omega⟩
    have hpos := length_marshal_pos x
    obtain ⟨hx, hwf⟩ := hxs x (List.mem_cons_self ..)
    simp only [marshalItems, List.length_append] at hf ⊢
    have hlong : r.length < (marshalItems xs ++ 101 :: r).length := by
      simp
      omega
    have ih (ys : List Val) (buf : Str) := ih (fun y hy => hxs y (List.mem_cons_of_mem x hy)) ys buf
      fuel (by omega) (o + (marshal x).length)
    rw [add_assoc o] at ih
    rw [outcomeItems, parseItems, ← room, List.append_assoc]
    by_cases hroom : room len ys
    · rw [if_pos hroom, if_pos hroom]
      have hx := hx g buf fuel (by omega) (marshalItems xs ++ 101 :: r) o
      split at hx
      · next err y buf' hout =>
        rw [hout, hx]
        cases err with
        | none =>
          have ih := ih (ys ++ [y]) buf'
          dsimp only at ih ⊢
          split at ih
          · exact ih
          · exact fun hg hraw => ih hg (outcome_raw x hg hraw hout)
        | some e =>
          exact fun _ _ => .ok rfl (Err.ne_eof (outcome_isUnmarshalType hout)) hlong
      · next hout =>
        rw [hout]
        intro hg hraw
        have hlost := hx hg hraw
        split
        · exact .error
        · next heq =>
          obtain ⟨e', he', hne, hle, -⟩ := hlost _ _ heq
          cases he'
          exact .ok rfl hne (by omega)
        · next heq =>
          obtain ⟨e', he', -⟩ := hlost _ _ heq
          cases he'
        · next heq =>
          obtain ⟨e', he', -⟩ := hlost _ _ heq
          cases he'
    · rw [if_neg hroom, if_neg hroom]
      by_cases hb : buf = [] ∨ hollow x
      · rw [if_pos hb, parseValueInterface_marshal x hwf hb _ (by omega)]
        exact ih ys buf
      · rw [if_neg hb]
        intro hg hraw
        obtain ⟨hne, hh⟩ := not_or.mp hb
        obtain ⟨e, he⟩ := parseValueInterface_raw hraw hne x hwf hh (fuel + 1) (by omega)
          (marshalItems xs ++ 101 :: r) o
        rw [he]
        exact .error

theorem parseDict_field {key : Str} {elem : τ} {get : Val → Val → Except Err Val}
    (hfield : getDictField g key = .ok ⟨some elem, get, ignores⟩) (hk : key.length ≤ strLimit m)
    (fuel : ℕ) (v : Val) (r : Str) (o : ℕ) (buf : Str) :
    parseDict T (fuel + 2) g v ⟨reflectString key ++ r, o, buf, m⟩ =
      match parseValue T (fuel + 1) (T elem) ⟨r, o + (reflectString key).length, [], m⟩ with
      | .error e => .error e
      | .ok (p, d) =>
        match p.uncaught ignores with
        | some e => .ok ((some (.keyValue key e), v), d)
        | none =>
          if p.ok then
            match get v p.val with
            | .error e => .error e
            | .ok v => parseDict T (fuel + 1) g v d
          else .ok ((some (.missingValue key), v), d) := by
  rw [parseDict, parseValue_key T hk]
  rcases hp : parseValue T (fuel + 1) (T elem) ⟨r, o + (reflectString key).length, [], m⟩ with
    e | ⟨p, d⟩
  · simp only [Val.text, hfield, hp]
  · cases hun : p.uncaught ignores <;> cases hget : get v p.val <;>
      simp only [Val.text, hfield, hp, hun, hget]

theorem uncaught_outcome (h : outcome T g v buf = some ((err, w), buf'))
    (hi : ¬ (err.isSome ∧ ¬ ignores)) : Parsed.uncaught ⟨true, err, w⟩ ignores = none := by
  cases err with
  | none => rfl
  | some e =>
    have hi : ignores = true := by simpa using hi
    simp [Parsed.uncaught, outcome_isUnmarshalType h, hi]

theorem length_marshalEntries_ge (es : List (Str × Value)) :
    es.length ≤ (marshalEntries es).length := by
  induction es with
  | nil => exact zero_le _
  | cons e es ih =>
    have hpos := length_marshal_pos e.2
    simp only [marshalEntries, List.length_cons, List.length_append]
    omega

/-- **Entries** that have an outcome are read to their end, whatever follows. -/
theorem parseDict_entries {T : τ → GoType τ} {m : Int64} {es : List (Str × Value)}
    (hes : ∀ e ∈ es, Completes T m e.2 ∧ e.1.length ≤ strLimit m ∧ WellFormed (strLimit m) e.2)
    {g : GoType τ} {v v' : Val} {buf buf' : Str}
    (h : outcomeEntries T g es v buf = some (v', buf')) (fuel : ℕ)
    (hf : 2 * (marshalEntries es).length ≤ fuel + es.length) (r : Str) (o : ℕ) :
    parseDict T (fuel + es.length) g v ⟨marshalEntries es ++ r, o, buf, m⟩ =
      parseDict T fuel g v' ⟨r, o + (marshalEntries es).length, buf', m⟩ := by
  induction es generalizing v buf o with
  | nil =>
    rw [outcomeEntries] at h
    obtain ⟨rfl, rfl⟩ := Prod.mk.inj (Option.some.inj h)
    rfl
  | cons e es ih =>
    obtain ⟨k, x⟩ := e
    obtain ⟨hx, hk, hwf⟩ : Completes T m x ∧ k.length ≤ strLimit m ∧ WellFormed (strLimit m) x :=
      hes _ (List.mem_cons_self ..)
    have hpos := length_marshal_pos x
    have hlen := length_marshalEntries_ge es
    simp only [marshalEntries, List.length_append, List.length_cons] at hf ⊢
    obtain ⟨fuel', hfuel⟩ : ∃ j, fuel + es.length = j + 1 := ⟨fuel + es.length - 1, by omega⟩
    have ih {v buf} (h : outcomeEntries T g es v buf = some (v', buf')) (o : ℕ) :=
      @ih (fun e he => hes e (List.mem_cons_of_mem _ he)) v buf h (by omega) o
    rw [← add_assoc, List.append_assoc, List.append_assoc, hfuel]
    rw [hfuel] at ih
    rw [outcomeEntries] at h
    split at h
    · cases h
    · next hfield =>
      rw [parseDict, parseValue_key T hk]
      simp only [Val.text, hfield]
      rw [parseValueInterface_marshal x hwf (.inl rfl) _ (by omega)]
      simp only
      rw [ih h]
      simp only [add_assoc]
    · next elem get ignores hfield =>
      rw [parseDict_field hfield hk]
      split at h
      · cases h
      · next err w buf₁ hout =>
        rw [hx hout _ (by omega)]
        by_cases herr : err.isSome ∧ ¬ ignores
        · rw [if_pos herr] at h
          cases h
        · rw [if_neg herr] at h
          simp only [uncaught_outcome hout herr, if_true]
          split at h
          · cases h
          · rw [ih h]
            simp only [add_assoc]

/-- **Entries** that have an outcome, and the end of the dictionary. -/
theorem parseDict_outcome {es : List (Str × Value)}
    (hes : ∀ e ∈ es, Completes T m e.2 ∧ e.1.length ≤ strLimit m ∧ WellFormed (strLimit m) e.2)
    {v v' : Val} (h : outcomeEntries T g es v buf = some (v', buf')) (fuel : ℕ)
    (hf : 2 * (marshalEntries es).length + 2 ≤ fuel) (r : Str) (o : ℕ) :
    parseDict T fuel g v ⟨marshalEntries es ++ 101 :: r, o, buf, m⟩ =
      .ok ((none, v'), ⟨r, o + (marshalEntries es).length + 1, buf', m⟩) := by
  have hlen := length_marshalEntries_ge es
  obtain ⟨fuel, rfl⟩ : ∃ k, fuel = k + 2 + es.length := ⟨fuel - 2 - es.length, by omega⟩
  rw [parseDict_entries hes h _ (by omega), parseDict,
    parseValue_end (by simp [GoType.indirect, GoType.string])]
  rfl

/-- **Entries** without an outcome. -/
theorem parseDict_stuck {T : τ → GoType τ} {m : Int64} {es : List (Str × Value)} {g : GoType τ}
    (hg : TagFree T g) (hu : g.unmarshaler = none)
    (hes : ∀ e ∈ es, Settles T m e.2 ∧ e.1.length ≤ strLimit m ∧ WellFormed (strLimit m) e.2)
    {v : Val} {buf : Str} (h : outcomeEntries T g es v buf = none) (fuel : ℕ)
    (hf : 2 * (marshalEntries es).length + 2 ≤ fuel) (r : Str) (o : ℕ) :
    Stuck r (parseDict T fuel g v ⟨marshalEntries es ++ 101 :: r, o, buf, m⟩) := by
  induction es generalizing v buf fuel o with
  | nil =>
    rw [outcomeEntries] at h
    cases h
  | cons e es ih =>
    obtain ⟨k, x⟩ := e
    obtain ⟨hx, hk, hwf⟩ : Settles T m x ∧ k.length ≤ strLimit m ∧ WellFormed (strLimit m) x :=
      hes _ (List.mem_cons_self ..)
    have hpos := length_marshal_pos x
    have hlong : r.length < (marshalEntries es ++ 101 :: r).length := by
      simp
      omega
    simp only [marshalEntries, List.length_append] at hf ⊢
    obtain ⟨fuel, rfl⟩ : ∃ j, fuel = j + 2 := ⟨fuel - 2, by omega⟩
    replace ih := @ih fun e he => hes e (List.mem_cons_of_mem _ he)
    rw [outcomeEntries] at h
    rw [List.append_assoc, List.append_assoc]
    split at h
    · next e hfield =>
      rw [parseDict, parseValue_key T hk]
      simp only [Val.text, hfield]
      refine .ok rfl ?_ ?_
      · rintro rfl
        rw [getDictField] at hfield
        repeat' split at hfield
        all_goals cases hfield
      · simp only [List.length_append] at hlong ⊢
        omega
    · next hfield =>
      rw [parseDict, parseValue_key T hk]
      simp only [Val.text, hfield]
      rw [parseValueInterface_marshal x hwf (.inl rfl) _ (by omega)]
      exact ih h _ (by omega) _
    · next elem get ignores hfield =>
      obtain ⟨rfl, helem⟩ := hg.field hu hfield
      rw [parseDict_field hfield hk]
      cases hout : outcome T (T elem) x [] with
      | none =>
        have hlost := hx.lost helem .nil hout (fuel + 1) (by omega) (marshalEntries es ++ 101 :: r)
          (o + (reflectString k).length)
        split
        · exact .error
        · next p d heq =>
          obtain ⟨e, he, hne, hle, -⟩ := hlost _ _ heq
          have hun : p.uncaught false = some e := by simp [Parsed.uncaught, he]
          rw [hun]
          exact .ok rfl (by simp) (by omega)
      | some w =>
        obtain ⟨⟨err, w⟩, buf'⟩ := w
        rw [hx.completes hout _ (by omega)]
        cases err with
        | some e =>
          have hun : Parsed.uncaught ⟨true, some e, w⟩ false = some e := by simp [Parsed.uncaught]
          simp only [hun]
          exact .ok rfl (by simp) hlong
        | none =>
          have hun : Parsed.uncaught ⟨true, none, w⟩ false = none := rfl
          simp only [hun, if_true]
          simp only [hout] at h
          cases hget : get v w with
          | error e => exact .error
          | ok v' =>
            simp only [hget] at h
            exact ih (by simpa using h) _ (by omega) _

theorem parseValue_settlesAt {other : GoType τ → Option ((Option Err × Val) × Str)}
    (hv : WellFormed (strLimit m) v) (hf : 2 * (marshal v).length ≤ fuel + 1)
    (hother : (g.indirect T).1.unmarshaler = none → (g.indirect T).1.kind ≠ .iface →
      match other (g.indirect T).1 with
      | some ((err, w), buf') =>
        parseValue T fuel g ⟨marshal v ++ r, o, buf, m⟩ =
          .ok (⟨true, err, (g.indirect T).2 w⟩, ⟨r, o + (marshal v).length, buf', m⟩)
      | none => TagFree T g → Raw buf → Lost r (parseValue T fuel g ⟨marshal v ++ r, o, buf, m⟩)) :
    match outcomeAt T g v buf other with
    | some ((err, w), buf') =>
      parseValue T fuel g ⟨marshal v ++ r, o, buf, m⟩ =
        .ok (⟨true, err, w⟩, ⟨r, o + (marshal v).length, buf', m⟩)
    | none => TagFree T g → Raw buf → Lost r (parseValue T fuel g ⟨marshal v ++ r, o, buf, m⟩) := by
  cases hu : (g.indirect T).1.unmarshaler with
  | some f =>
    rw [outcomeAt_unmarshaler hu, parseValue_unmarshaler hu hv hf]
    cases f (marshal v) with
    | error refusal => exact fun _ _ => .error
    | ok w => rfl
  | none =>
    by_cases hk : (g.indirect T).1.kind = .iface
    · obtain ⟨fuel, rfl⟩ : ∃ k, fuel = k + 1 := ⟨fuel - 1, by have := length_marshal_pos v; omega⟩
      rw [outcomeAt_iface hu hk, parseValue_iface_eq hu hk]
      by_cases hb : buf = [] ∨ hollow v
      · rw [if_pos hb, parseValueInterface_marshal v hv hb _ hf]
      · rw [if_neg hb]
        intro _ hraw
        obtain ⟨hne, hh⟩ := not_or.mp hb
        obtain ⟨e, he⟩ := parseValueInterface_raw hraw hne v hv hh (fuel + 1) hf r o
        rw [he]
        exact .error
    · rw [outcomeAt_other hu hk]
      have hother := hother hu hk
      cases hout : other (g.indirect T).1 <;> rw [hout] at hother <;> exact hother

/-- **Read to the end, or not.** A value that has an outcome is read exactly, and this is returned.
One without makes `parseValue` panic or return an error, and a type error only before the end of the
value. -/
theorem parseValue_settles (T : τ → GoType τ) (v : Value) (hv : WellFormed (strLimit m) v) :
    Settles T m v := by
  induction v
  all_goals
    intro g buf fuel hf r o
    rw [outcome]
    refine parseValue_settlesAt hv hf fun hu hk => ?_
  case int n =>
    obtain ⟨fuel, rfl⟩ : ∃ k, fuel = k + 1 := ⟨fuel - 1, by simp [marshal] at hf; omega⟩
    have hs : 101 ∉ formatInt n.toInt := notMem_formatInt (by decide) (by decide) _
    have hp := parseInt_outcome (g := (g.indirect T).1) hs r (o + 1) buf m
    rw [marshal, List.cons_append, parseValue_cons hu hk, if_neg (by decide), if_neg (by decide),
      if_neg (by decide), if_pos rfl, List.append_assoc, List.singleton_append]
    split at hp
    · next hout =>
      rw [hout, hp]
      exact ok_offset (by simp; omega)
    · next hout =>
      rw [hout]
      intro _ _
      rcases hp with ⟨e, hp⟩ | ⟨d, hp, hd⟩
      · rw [hp]
        exact .error
      · rw [hp]
        exact .ok rfl (by simp) ⟨by simp [hd], by simp [Err.isUnmarshalType]⟩
  case str s =>
    obtain ⟨fuel, rfl⟩ : ∃ k, fuel = k + 1 :=
      ⟨fuel - 1, by have := length_marshal_pos (.str s); omega⟩
    rw [marshal, parseValue_str hu hk hv]
  case list xs ih =>
    rw [marshal, List.length_cons, List.length_append, List.length_singleton] at hf
    obtain ⟨fuel, rfl⟩ : ∃ k, fuel = k + 1 := ⟨fuel - 1, by omega⟩
    have hxs := wellFormedItems_iff.mp hv
    have hitems := parseItems_settles (fun x hx => ⟨ih x hx (hxs x hx), hxs x hx⟩)
      (itemType T (g.indirect T).1) [] buf fuel (by omega) r (o + 1)
    rw [marshal, List.cons_append, parseValue_cons hu hk, if_neg (by decide), if_neg (by decide),
      if_pos rfl, List.append_assoc, List.singleton_append]
    split at hitems
    · next hout =>
      rw [hout, hitems]
      exact ok_offset (by simp; omega)
    · next hout =>
      rw [hout]
      intro hg hraw
      have hstuck := hitems (hg.indirect.item hu) hraw
      split
      · exact .error
      · next heq =>
        obtain ⟨e, he, hne, hlt⟩ := hstuck _ _ heq
        obtain rfl : _ = some e := he
        refine .ok ?_ hne ⟨le_of_lt hlt, fun _ => hlt⟩
        cases hk' : (g.indirect T).1.kind <;> simp [storeList, hk']
  case dict es ih =>
    rw [marshal, List.length_cons, List.length_append, List.length_singleton] at hf
    obtain ⟨fuel, rfl⟩ : ∃ k, fuel = k + 1 := ⟨fuel - 1, by omega⟩
    have hes := wellFormedEntries_iff.mp hv.2
    rw [marshal, List.cons_append, parseValue_cons hu hk, if_neg (by decide), if_pos rfl,
      List.append_assoc, List.singleton_append]
    cases hout : outcomeEntries T (g.indirect T).1 es .zero buf with
    | some w =>
      rw [parseDict_outcome (fun e he => ⟨(ih e he (hes e he).2).completes, hes e he⟩) hout _
        (by omega)]
      exact ok_offset (by simp; omega)
    | none =>
      intro hg hraw
      have hstuck := parseDict_stuck hg.indirect hu (fun e he => ⟨ih e he (hes e he).2, hes e he⟩)
        hout fuel (by omega) r (o + 1)
      split
      · exact .error
      · next heq =>
        obtain ⟨e, he, hne, hlt⟩ := hstuck _ _ heq
        exact .ok he hne ⟨le_of_lt hlt, fun _ => hlt⟩

theorem parseValue_outcome (T : τ → GoType τ) (v : Value) (hv : WellFormed (strLimit m) v) :
    Completes T m v :=
  (parseValue_settles T v hv).completes

theorem parseValue_lost (T : τ → GoType τ) (v : Value) (hv : WellFormed (strLimit m) v)
    (hg : TagFree T g) (hraw : Raw buf) (hout : outcome T g v buf = none) (fuel : ℕ)
    (hf : 2 * (marshal v).length ≤ fuel + 1) (r : Str) (o : ℕ) :
    Lost r (parseValue T fuel g ⟨marshal v ++ r, o, buf, m⟩) :=
  (parseValue_settles T v hv).lost hg hraw hout fuel hf r o

/-- **`Decode`** succeeds on the text of a value, and whatever follows it, just when the outcome is
that the value is stored. -/
theorem decode_iff (hg : TagFree T g) (hv : WellFormed (strLimit m) v) (hraw : Raw buf) {w : Val}
    {d' : Decoder} :
    decode T g ⟨marshal v ++ r, o, buf, m⟩ = .ok (w, d') ↔
      ∃ buf', outcome T g v buf = some ((none, w), buf') ∧
        d' = ⟨r, o + (marshal v).length, buf', m⟩ := by
  have hf : 2 * (marshal v).length ≤ 2 * (marshal v ++ r).length + 2 + 1 := by
    rw [List.length_append]
    omega
  rw [decode_ok_iff]
  constructor
  · intro h
    cases hout : outcome T g v buf with
    | none =>
      obtain ⟨e, he, -⟩ := parseValue_lost T v hv hg hraw hout _ hf r o _ _ h
      cases he
    | some out =>
      obtain ⟨⟨err, w'⟩, buf'⟩ := out
      rw [parseValue_outcome T v hv hout _ hf] at h
      cases h
      exact ⟨buf', rfl, rfl⟩
  · rintro ⟨buf', hout, rfl⟩
    exact parseValue_outcome T v hv hout _ hf r o

end Decoder

end ReliableBT.Bencode
