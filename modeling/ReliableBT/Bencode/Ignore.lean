import ReliableBT.Bencode.Fuel

/-!
# Ignored type errors

A struct field with the tag `ignore_unmarshal_type_error` makes `parseDict` go on after an
`UnmarshalTypeError` of its value, from where `parseValue` left off. It leaves off where the error
was found, which may be inside the value: after the first item of a list that does not fit, with the
rest of the list still to be read.

* `Local`: with the key of the field, the dictionary is decoded too, `parseDict` goes on after the
  value, and the other fields are the same as without the key.
* `local_iff`: this holds **iff** the value is read to its end (`Skips`), the field can be set, and
  no other key in the dictionary belongs to the same embedded pointer. For a field whose type has no
  such tags itself, a value is read to its end just when it has an outcome.
-/

open List

namespace ReliableBT.Bencode

open Decimal Decoder

variable {τ : Type}

/-! ## Structs -/

/-- A struct type that is not an `Unmarshaler`. -/
def GoType.ofFields (fields : List (Field τ)) : GoType τ := ⟨.struct fields, none⟩

/-- What a field of a struct has been set to. -/
def Val.slot (v : Val) (j : ℕ) : Option Val := v.slots.lookup j

/-- The embedded pointer on the way to the field for a key. -/
def keyPtr (fields : List (Field τ)) (key : Str) : Option ℕ :=
  (getStructFieldForKey fields key).bind fun f => f.1.ptr

/-- Does the key belong to the same embedded pointer as the field? -/
def shares (fields : List (Field τ)) (f : Field τ) (key : Str) : Bool :=
  f.ptr.any fun p => decide (keyPtr fields key = some p)

variable {fields : List (Field τ)} {key : Str} {f : Field τ} {i : ℕ} {T : τ → GoType τ} {e : Placed}
  {v : Val} {g : GoType τ}

theorem getElem_of_field (h : getStructFieldForKey fields key = some (f, i)) :
    fields[i]? = some f := by
  have hmem := mem_of_find?_eq_some h
  rw [mem_reverse] at hmem
  exact mk_mem_zipIdx_iff_getElem?.mp hmem

theorem getDictField_ofFields (h : getStructFieldForKey fields key = some (f, i)) :
    getDictField (.ofFields fields) key = .ok ⟨some f.type, setField fields f i, f.ignores⟩ := by
  simp only [getDictField, GoType.ofFields, h]

theorem ptrSet_cons (h : fields[i]? = some f) (x : Val) (s : List (ℕ × Val)) (p : ℕ) :
    ptrSet fields (.struct ((i, x) :: s)) p =
      (decide (f.ptr = some p) || ptrSet fields (.struct s) p) := by
  simp [ptrSet, Val.slots, h]

theorem ptrSet_struct_slots (fields : List (Field τ)) (v : Val) (p : ℕ) :
    ptrSet fields (.struct v.slots) p = ptrSet fields v p := rfl

section Entries
variable {T : τ → GoType τ} {fields : List (Field τ)}

theorem outcomeEntries_ofFields (key : Str) (x : Value) (es : List (Str × Value)) (v : Val)
    (buf : Str) :
    outcomeEntries T (.ofFields fields) ((key, x) :: es) v buf =
      match getStructFieldForKey fields key with
      | none => outcomeEntries T (.ofFields fields) es v []
      | some (f, i) =>
        match outcome T (T f.type) x [] with
        | none => none
        | some ((err, w), buf) =>
          if err.isSome ∧ ¬ f.ignores then none
          else
            match setField fields f i v w with
            | .error _ => none
            | .ok v => outcomeEntries T (.ofFields fields) es v buf := by
  rw [outcomeEntries]
  simp only [getDictField, GoType.ofFields]
  cases getStructFieldForKey fields key <;> rfl

theorem outcomeEntries_append (es es' : List (Str × Value)) (g : GoType τ) (v : Val) (buf : Str) :
    outcomeEntries T g (es ++ es') v buf =
      (outcomeEntries T g es v buf).bind fun w => outcomeEntries T g es' w.1 w.2 := by
  induction es generalizing v buf with
  | nil => simp [outcomeEntries]
  | cons e es ih =>
    obtain ⟨k, x⟩ := e
    rw [cons_append, outcomeEntries, outcomeEntries]
    split
    · rfl
    · exact ih ..
    · split
      · rfl
      · split
        · rfl
        · split
          · rfl
          · exact ih ..

variable {es : List (Str × Value)} {v w : Val} {buf buf' : Str} {i : ℕ} {y v' : Val}

theorem outcomeEntries_cons_some {key : Str} {x : Value}
    (h : outcomeEntries T (.ofFields fields) ((key, x) :: es) v buf = some (w, buf')) :
    (getStructFieldForKey fields key = none ∧
      outcomeEntries T (.ofFields fields) es v [] = some (w, buf')) ∨
    ∃ f i err y b, getStructFieldForKey fields key = some (f, i) ∧
      outcome T (T f.type) x [] = some ((err, y), b) ∧ ¬ (err.isSome ∧ ¬ f.ignores) ∧
      f.ptr.any (ptrSet fields v) = false ∧ f.settable ∧
      outcomeEntries T (.ofFields fields) es (.struct ((i, y) :: v.slots)) b = some (w, buf') := by
  rw [outcomeEntries_ofFields] at h
  split at h
  · next hf => exact .inl ⟨hf, h⟩
  · next f i hf =>
    split at h
    · cases h
    · next err y b hout =>
      split at h
      · cases h
      · next herr =>
        rw [setField] at h
        by_cases hp : f.ptr.any (ptrSet fields v)
        · rw [if_pos hp] at h
          cases h
        by_cases hs : f.settable
        · rw [if_neg hp, if_pos hs] at h
          exact .inr ⟨f, i, err, y, b, hf, hout, herr, by simpa using hp, hs, h⟩
        · rw [if_neg hp, if_neg hs] at h
          cases h

theorem outcomeEntries_ptrSet (h : outcomeEntries T (.ofFields fields) es v buf = some (w, buf'))
    (p : ℕ) :
    ptrSet fields w p =
      (ptrSet fields v p || es.any fun e => decide (keyPtr fields e.1 = some p)) := by
  induction es generalizing v buf with
  | nil =>
    rw [outcomeEntries] at h
    cases h
    simp
  | cons e es ih =>
    obtain ⟨k, x⟩ := e
    rcases outcomeEntries_cons_some h with ⟨hf, h⟩ | ⟨f, i, err, y, b, hf, -, -, -, -, h⟩
    · simp [ih h, keyPtr, hf]
    · rw [ih h, ptrSet_cons (getElem_of_field hf), ptrSet_struct_slots, any_cons]
      simp only [keyPtr, hf, Option.bind_some]
      cases ptrSet fields v p <;> simp

/-! ## One more field -/

/-- `v'` has one more field set than `v`. -/
def Extra (i : ℕ) (y : Val) (v v' : Val) : Prop :=
  ∃ s s', v.slots = s ++ s' ∧ v'.slots = s ++ (i, y) :: s'

theorem Extra.slot (h : Extra i y v v') {j : ℕ} (hj : j ≠ i) : v'.slot j = v.slot j := by
  obtain ⟨s, s', hv, hv'⟩ := h
  rw [Val.slot, Val.slot, hv, hv', lookup_append, lookup_append, lookup_cons, beq_false_of_ne hj]

theorem Extra.cons (h : Extra i y v v') (e : ℕ × Val) :
    Extra i y (.struct (e :: v.slots)) (.struct (e :: v'.slots)) := by
  obtain ⟨s, s', hv, hv'⟩ := h
  exact ⟨e :: s, s', congrArg (e :: ·) hv, congrArg (e :: ·) hv'⟩

theorem Extra.ptrSet {i : ℕ} {y v v' : Val} (h : Extra i y v v') {f : Field τ}
    (hf : fields[i]? = some f) (p : ℕ) :
    ptrSet fields v' p = (ptrSet fields v p || decide (f.ptr = some p)) := by
  obtain ⟨s, s', hv, hv'⟩ := h
  simp only [Bencode.ptrSet, hv, hv', any_append, any_cons, hf, Option.bind_some]
  cases s.any _ <;> cases s'.any _ <;> simp

/-- With one more field set, the entries that do not belong to its embedded pointer are stored as
before. -/
theorem outcomeEntries_extra {f : Field τ} {i : ℕ} (hf : fields[i]? = some f) {y : Val}
    {es : List (Str × Value)} (hes : ∀ e ∈ es, shares fields f e.1 = false) {v v' w : Val}
    {buf buf' : Str} (h : outcomeEntries T (.ofFields fields) es v buf = some (w, buf'))
    (hv : Extra i y v v') (buf₁ : Str) :
    ∃ w' b, outcomeEntries T (.ofFields fields) es v' buf₁ = some (w', b) ∧ Extra i y w w' := by
  induction es generalizing v v' buf buf₁ with
  | nil =>
    rw [outcomeEntries] at h
    cases h
    exact ⟨v', buf₁, by rw [outcomeEntries], hv⟩
  | cons e es ih =>
    obtain ⟨k, x⟩ := e
    have hk : shares fields f k = false := hes _ (mem_cons_self ..)
    have ih := @ih fun e he => hes e (mem_cons_of_mem _ he)
    rcases outcomeEntries_cons_some h with
      ⟨hnone, h⟩ | ⟨f', j, err, z, b, hf', hout, herr, hp, hs, h⟩
    · obtain ⟨w', b, hw', hextra⟩ := ih h hv []
      exact ⟨w', b, by rw [outcomeEntries_ofFields, hnone]; exact hw', hextra⟩
    · obtain ⟨w', b', hw', hextra⟩ := ih h (hv.cons (j, z)) b
      refine ⟨w', b', ?_, hextra⟩
      have hp' : f'.ptr.any (ptrSet fields v') = false := by
        cases hptr : f'.ptr with
        | none => rfl
        | some p =>
          rw [hptr] at hp
          have hne : f.ptr ≠ some p := by
            intro hfp
            simp [shares, hfp, keyPtr, hf', hptr] at hk
          simpa [hv.ptrSet hf, hne] using hp
      simp only [outcomeEntries_ofFields, hf', hout, if_neg herr, setField, hp', hs,
        Bool.false_eq_true, if_false, if_true]
      exact hw'

/-- With one more field set, an entry that belongs to its embedded pointer is refused. -/
theorem parseDict_shared {m : Int64} {f : Field τ} (hf : fields[i]? = some f)
    (hes : ∀ e ∈ es, e.1.length ≤ strLimit m ∧ WellFormed (strLimit m) e.2)
    (hshare : ∃ e ∈ es, shares fields f e.1)
    (h : outcomeEntries T (.ofFields fields) es v buf = some (w, buf')) (hv : Extra i y v v')
    (fuel : ℕ) (hfuel : 2 * (marshalEntries es).length ≤ fuel) (buf₁ r : Str) (o : ℕ) :
    parseDict T fuel (.ofFields fields) v' ⟨marshalEntries es ++ r, o, buf₁, m⟩ =
      .error .reflectValue := by
  -- the first of these entries: those before it are stored
  obtain ⟨e, hfind⟩ : ∃ e, es.find? (fun e => shares fields f e.1) = some e :=
    Option.isSome_iff_exists.mp (find?_isSome.mpr hshare)
  obtain ⟨hk, as, bs, rfl, has⟩ := find?_eq_some_iff_append.mp hfind
  obtain ⟨k, x⟩ := e
  have hcomplete : ∀ e ∈ as ++ (k, x) :: bs,
      Completes T m e.2 ∧ e.1.length ≤ strLimit m ∧ WellFormed (strLimit m) e.2 :=
    fun e he => ⟨parseValue_outcome T e.2 (hes e he).2, hes e he⟩
  obtain ⟨hx, hklen, -⟩ : Completes T m x ∧ k.length ≤ strLimit m ∧ WellFormed (strLimit m) x :=
    hcomplete (k, x) (by simp)
  rw [outcomeEntries_append] at h
  obtain ⟨⟨v₁, b₁⟩, has', h⟩ := Option.bind_eq_some_iff.mp h
  obtain ⟨v₂, b₂, hv₂, hextra⟩ :=
    outcomeEntries_extra hf (fun e he => by simpa using has e he) has' hv buf₁
  have hlen := length_marshalEntries_ge as
  have hpos := length_marshal_pos x
  simp only [marshalEntries_append, marshalEntries, length_append, append_assoc] at hfuel ⊢
  obtain ⟨fuel, rfl⟩ : ∃ n, fuel = n + 2 + as.length := ⟨fuel - 2 - as.length, by omega⟩
  rw [parseDict_entries (fun e he => hcomplete e (mem_append_left _ he)) hv₂ _ (by omega)]
  rcases outcomeEntries_cons_some h with ⟨hnone, -⟩ | ⟨f', j, err, z, b, hf', hout, herr, -, -, -⟩
  · simp [shares, keyPtr, hnone] at hk
  · have hp : f'.ptr.any (ptrSet fields v₂) = true := by
      simp only [shares, keyPtr, hf', Option.bind_some, Option.any_eq_true] at hk ⊢
      obtain ⟨p, hfp, hf'p⟩ := hk
      exact ⟨p, by simpa using hf'p, by simp [hextra.ptrSet hf, hfp]⟩
    rw [parseDict_field (getDictField_ofFields hf') hklen, hx hout _ (by omega)]
    simp only [uncaught_outcome hout herr, if_true, setField, hp]

end Entries

/-! ## An entry in the input -/

/-- An entry of a dictionary in the input of a decoder. -/
structure Placed where
  /-- the entries before it -/
  before : List (Str × Value)
  key : Str
  value : Value
  /-- the entries after it -/
  after : List (Str × Value)
  /-- the input after the dictionary -/
  rest : Str
  /-- where the dictionary begins -/
  offset : ℕ
  /-- what is in the buffer there -/
  buf : Str
  maxStrLen : Int64

namespace Placed
variable (e : Placed)

/-- The dictionary. -/
def whole : Value := .dict (e.before ++ (e.key, e.value) :: e.after)

/-- The other entries of the dictionary. -/
def others : List (Str × Value) := e.before ++ e.after

/-- The decoder before a dictionary in this place. -/
def decoderAt (v : Value) : Decoder := ⟨marshal v ++ e.rest, e.offset, e.buf, e.maxStrLen⟩

/-- The decoder before the value of the entry. -/
def beforeValue : Decoder :=
  ⟨marshal e.value ++ (marshalEntries e.after ++ 101 :: e.rest),
    e.offset + 1 + (marshalEntries e.before).length + (reflectString e.key).length, [], e.maxStrLen⟩

/-- The decoder after the value of the entry, up to the buffer. -/
def afterValue (buf : Str) : Decoder :=
  ⟨marshalEntries e.after ++ 101 :: e.rest, e.beforeValue.offset + (marshal e.value).length, buf,
    e.maxStrLen⟩

end Placed

/-- `parseValue` returns, after the last byte of the value. -/
def Resumes (T : τ → GoType τ) (g : GoType τ) (e : Placed) (p : Parsed) : Prop :=
  ∃ buf, parseValue T (2 * e.beforeValue.rest.length + 1) g e.beforeValue =
    .ok (p, e.afterValue buf)

/-- `parseValue` reads the value to its end, without an error or with a type error. -/
def Skips (T : τ → GoType τ) (g : GoType τ) (e : Placed) : Prop :=
  ∃ p, Resumes T g e p ∧ p.ok ∧ p.uncaught true = none

/-- The dictionary is decoded, with the other fields as they are without the key, and `parseDict`
goes on after the value of the key, which is the one of the field with the number `i`. -/
def Local (T : τ → GoType τ) (fields : List (Field τ)) (f : Field τ) (i : ℕ) (e : Placed) : Prop :=
  (∃ w d w₀ d₀, decode T (.ofFields fields) (e.decoderAt e.whole) = .ok (w, d) ∧ d.rest = e.rest ∧
    decode T (.ofFields fields) (e.decoderAt (.dict e.others)) = .ok (w₀, d₀) ∧
    ∀ j ≠ i, w.slot j = w₀.slot j) ∧
  ∃ p, Resumes T (T f.type) e p

theorem decode_ofFields {es : List (Str × Value)} {r : Str} {o : ℕ} {buf : Str} {m : Int64}
    {w : Val} {d : Decoder} :
    decode T (.ofFields fields) ⟨marshal (.dict es) ++ r, o, buf, m⟩ = .ok (w, d) ↔
      parseDict T (2 * (marshal (.dict es) ++ r).length + 1) (.ofFields fields) .zero
        ⟨marshalEntries es ++ 101 :: r, o + 1, buf, m⟩ = .ok ((none, w), d) := by
  have hu : ((GoType.ofFields fields).indirect T).1.unmarshaler = none := rfl
  have hk : ((GoType.ofFields fields).indirect T).1.kind ≠ .iface := by
    simp [GoType.ofFields, GoType.indirect]
  rw [decode_ok_iff]
  have htext : marshal (.dict es) ++ r = 100 :: (marshalEntries es ++ 101 :: r) := by
    simp [marshal]
  simp only [htext]
  rw [parseValue_cons hu hk, if_neg (by decide), if_pos rfl]
  constructor
  · intro h
    split at h
    · cases h
    · next heq =>
      cases h
      exact heq
  · intro h
    have h' : parseDict T (2 * (100 :: (marshalEntries es ++ 101 :: r)).length + 1)
        ((GoType.ofFields fields).indirect T).1 .zero
        ⟨marshalEntries es ++ 101 :: r, o + 1, buf, m⟩ = .ok ((none, w), d) := h
    rw [h']
    rfl

theorem decode_whole (hf : getStructFieldForKey fields e.key = some (f, i)) (hi : f.ignores)
    (hk : e.key.length ≤ strLimit e.maxStrLen)
    (hes : ∀ x ∈ e.before, x.1.length ≤ strLimit e.maxStrLen ∧
      WellFormed (strLimit e.maxStrLen) x.2) {b : Str}
    (hv : outcomeEntries T (.ofFields fields) e.before .zero e.buf = some (v, b)) :
    ∃ fuel, 2 * (marshalEntries e.after).length + 2 ≤ fuel ∧ ∀ w d,
      decode T (.ofFields fields) (e.decoderAt e.whole) = .ok (w, d) ↔
        ∃ p d₁ v₁,
          parseValue T (2 * e.beforeValue.rest.length + 1) (T f.type) e.beforeValue = .ok (p, d₁) ∧
          p.uncaught true = none ∧ p.ok ∧ setField fields f i v p.val = .ok v₁ ∧
          parseDict T fuel (.ofFields fields) v₁ d₁ = .ok ((none, w), d) := by
  have hlen := length_marshalEntries_ge e.before
  have htext : marshalEntries (e.before ++ (e.key, e.value) :: e.after) ++ 101 :: e.rest =
      marshalEntries e.before ++ (reflectString e.key ++ e.beforeValue.rest) := by
    simp [marshalEntries_append, marshalEntries, Placed.beforeValue]
  have hlong : (marshal e.whole ++ e.rest).length =
      1 + (marshalEntries e.before).length + (reflectString e.key).length +
        e.beforeValue.rest.length := by
    rw [Placed.whole, marshal, cons_append, append_assoc, singleton_append, htext]
    simp
    omega
  have hvalue : (marshalEntries e.after).length + 1 ≤ e.beforeValue.rest.length := by
    simp [Placed.beforeValue]
    omega
  obtain ⟨fuel, hfuel⟩ : ∃ n, 2 * (marshal e.whole ++ e.rest).length + 1 =
      n + 2 + e.before.length := ⟨2 * (marshal e.whole ++ e.rest).length - 1 - e.before.length,
        by omega⟩
  refine ⟨fuel + 1, by omega, fun w d => ?_⟩
  have hparse : parseValue T (fuel + 1) (T f.type) e.beforeValue = _ :=
    parseValue_fuel T (by omega)
  rw [Placed.decoderAt, Placed.whole, decode_ofFields, ← Placed.whole, hfuel, htext,
    parseDict_entries (fun x hx => ⟨parseValue_outcome T x.2 (hes x hx).2, hes x hx⟩) hv _
      (by omega), parseDict_field (getDictField_ofFields hf) hk, hi]
  -- the decoder of the goal is `e.beforeValue`, written out
  erw [hparse]
  constructor
  · intro h
    split at h
    · cases h
    · next p d₁ heq =>
      split at h
      · cases h
      · next hun =>
        split at h
        · next hok =>
          split at h
          · cases h
          · next v₁ hset => exact ⟨p, d₁, v₁, heq, hun, hok, hset, h⟩
        · cases h
  · rintro ⟨p, d₁, v₁, heq, hun, hok, hset, h⟩
    simp only [heq, hun, hok, hset, if_true, h]

/-! ## Ignored errors are local -/

theorem skips_of_outcome (hv : WellFormed (strLimit e.maxStrLen) e.value)
    (h : (outcome T g e.value []).isSome) : Skips T g e := by
  obtain ⟨⟨⟨err, w⟩, buf⟩, hout⟩ := Option.isSome_iff_exists.mp h
  refine ⟨⟨true, err, w⟩, ⟨buf, ?_⟩, rfl, uncaught_outcome hout (by simp)⟩
  exact parseValue_outcome T e.value hv hout _ (by simp [Placed.beforeValue]; omega) _ _

/-- Without ignored errors inside the value, it is read to its end just if it has an outcome. -/
theorem skips_iff_outcome (hg : TagFree T g) (hv : WellFormed (strLimit e.maxStrLen) e.value) :
    Skips T g e ↔ (outcome T g e.value []).isSome := by
  refine ⟨?_, skips_of_outcome hv⟩
  rintro ⟨p, ⟨buf, hp⟩, -, hun⟩
  by_contra hout
  rw [Option.not_isSome_iff_eq_none] at hout
  obtain ⟨err, herr, -, -, hlt⟩ := parseValue_lost T e.value hv hg .nil hout
    (2 * e.beforeValue.rest.length + 1) (by simp [Placed.beforeValue]; omega) _ _ _ _ hp
  have htype : err.isUnmarshalType := by simpa [Parsed.uncaught, herr] using hun
  exact absurd (hlt htype) (lt_irrefl _)

theorem setField_ok_iff {x v' : Val} :
    setField fields f i v x = .ok v' ↔
      f.ptr.any (ptrSet fields v) = false ∧ f.settable ∧ v' = .struct ((i, x) :: v.slots) := by
  rw [setField]
  by_cases hp : f.ptr.any (ptrSet fields v) <;> by_cases hs : f.settable <;> simp [hp, hs, eq_comm]

/-- **Ignored type errors.** If the dictionary is decoded without the key of a field that ignores
type errors, the key changes nothing but this field **iff** its value is read to its end, the field
can be set, and no other key belongs to the same embedded pointer. If no type inside the one of the
field ignores errors, the first of these is a matter of the value and the type alone: the value has
an outcome for the type. -/
theorem local_iff {T : τ → GoType τ} {fields : List (Field τ)} {f : Field τ} {i : ℕ} (e : Placed)
    (hf : getStructFieldForKey fields e.key = some (f, i)) (hi : f.ignores)
    (hv : WellFormed (strLimit e.maxStrLen) e.whole)
    (h₀ : (outcomeEntries T (.ofFields fields) e.others .zero e.buf).isSome) :
    (Local T fields f i e ↔ Skips T (T f.type) e ∧ f.settable ∧
      ∀ x ∈ e.others, shares fields f x.1 = false) ∧
    (TagFree T (T f.type) → (Skips T (T f.type) e ↔ (outcome T (T f.type) e.value []).isSome) ∧
      (Local T fields f i e ↔ (outcome T (T f.type) e.value []).isSome ∧ f.settable ∧
        ∀ x ∈ e.others, shares fields f x.1 = false)) := by
  obtain ⟨⟨w₀, b₀⟩, h₀⟩ := Option.isSome_iff_exists.mp h₀
  have hes := wellFormedEntries_iff.mp hv.2
  have hbefore := fun x hx => hes x (mem_append_left _ hx)
  obtain ⟨hk, hvalue⟩ := hes (e.key, e.value) (by simp)
  have hafter := fun x hx => hes x (mem_append_right _ (mem_cons_of_mem _ hx))
  suffices hlocal : Local T fields f i e ↔ Skips T (T f.type) e ∧ f.settable ∧
      ∀ x ∈ e.others, shares fields f x.1 = false by
    refine ⟨hlocal, fun hg => ⟨skips_iff_outcome hg hvalue, ?_⟩⟩
    rw [hlocal, skips_iff_outcome hg hvalue]
  have hpre := h₀
  rw [Placed.others, outcomeEntries_append] at hpre
  obtain ⟨⟨v, b⟩, hpre, hpost⟩ := Option.bind_eq_some_iff.mp hpre
  have hi' := getElem_of_field hf
  -- the pointer of the field has been set just if an entry before it has set it
  have hptr : f.ptr.any (ptrSet fields v) = e.before.any fun x => shares fields f x.1 := by
    cases hfp : f.ptr with
    | none => simp [shares, hfp]
    | some p =>
      have hzero : ptrSet fields .zero p = false := rfl
      simp [shares, hfp, outcomeEntries_ptrSet hpre p, hzero]
  obtain ⟨fuel, hfuel, hwhole⟩ := decode_whole hf hi hk hbefore hpre
  constructor
  · rintro ⟨⟨w, d, -, -, hd, -, -, -⟩, p, buf, hp⟩
    obtain ⟨p', d₁, v₁, hp', hun, hok, hset, hrun⟩ := (hwhole w d).mp hd
    rw [hp] at hp'
    cases hp'
    obtain ⟨hnew, hs, rfl⟩ := setField_ok_iff.mp hset
    refine ⟨⟨p, ⟨buf, hp⟩, hok, hun⟩, hs, fun x hx => ?_⟩
    rcases mem_append.mp hx with hx | hx
    · rw [hptr, any_eq_false] at hnew
      simpa using hnew x hx
    · by_contra hshare
      have hrefused := parseDict_shared hi' hafter ⟨x, hx, by simpa using hshare⟩ hpost
        (⟨[], v.slots, rfl, rfl⟩ : Extra i p.val v (.struct ((i, p.val) :: v.slots))) fuel
        (by omega) buf (101 :: e.rest) (e.beforeValue.offset + (marshal e.value).length)
      rw [Placed.afterValue, hrefused] at hrun
      cases hrun
  · rintro ⟨⟨p, ⟨buf, hp⟩, hok, hun⟩, hs, hshare⟩
    have hnew : f.ptr.any (ptrSet fields v) = false := by
      rw [hptr, any_eq_false]
      exact fun x hx => by simpa using hshare x (mem_append_left _ hx)
    obtain ⟨w, b', hw, hextra⟩ := outcomeEntries_extra hi'
      (fun x hx => hshare x (mem_append_right _ hx)) hpost
      (⟨[], v.slots, rfl, rfl⟩ : Extra i p.val v (.struct ((i, p.val) :: v.slots))) buf
    have hrun := parseDict_outcome
      (fun x hx => ⟨parseValue_outcome T x.2 (hafter x hx).2, hafter x hx⟩) hw fuel hfuel e.rest
      (e.beforeValue.offset + (marshal e.value).length)
    have hothers := fun x (hx : x ∈ e.others) =>
      (mem_append.mp hx).elim (hbefore x) (hafter x)
    have habsent := parseDict_outcome
      (fun x hx => ⟨parseValue_outcome T x.2 (hothers x hx).2, hothers x hx⟩) h₀
      (2 * (marshal (.dict e.others) ++ e.rest).length + 1) (by simp [marshal]) e.rest
      (e.offset + 1)
    exact ⟨⟨w, _, w₀, _, (hwhole w _).mpr ⟨p, _, _, hp, hun, hok,
      setField_ok_iff.mpr ⟨hnew, hs, rfl⟩, hrun⟩, rfl, decode_ofFields.mpr habsent,
      fun j hj => hextra.slot hj⟩, p, buf, hp⟩

/-! ## `CreationDate` of a `MetaInfo` -/

/-- `creation date` -/
def creationDateKey : Str := [99, 114, 101, 97, 116, 105, 111, 110, 32, 100, 97, 116, 101]

/-- `CreationDate`, with the tag `creation date,omitempty,ignore_unmarshal_type_error`. -/
def creationDate : Field Unit where
  name := [67, 114, 101, 97, 116, 105, 111, 110, 68, 97, 116, 101]
  tagStr := creationDateKey ++ 44 :: [111, 109, 105, 116, 101, 109, 112, 116, 121] ++
    44 :: ignoreUnmarshalTypeErrorOpt
  type := ()
  settable := true
  ptr := none

/-- It is an `int64`. -/
def creationDateTypes : Unit → GoType Unit := fun _ => ⟨.int 64, none⟩

theorem getStructFieldForKey_creationDate :
    getStructFieldForKey [creationDate] creationDateKey = some (creationDate, 0) := rfl

/-- `d1:cli7ee13:creation date1:x8:encoding1:ye`: a string is read to its end. -/
theorem local_string :
    Local creationDateTypes [creationDate] creationDate 0
      ⟨[([99], .list [.int (.int64 7)])], creationDateKey, .str [120],
        [([101, 110, 99, 111, 100, 105, 110, 103], .str [121])], [], 0, [], 0⟩ :=
  (local_iff (T := creationDateTypes) _ getStructFieldForKey_creationDate (by decide) (by decide)
    rfl).1.mpr ⟨skips_of_outcome (by decide) rfl, rfl, by decide⟩

/-- `d13:creation datel1:xee`: the type error is found at `1:x`, the `e` of the list is taken for
the one of the dictionary, and the last byte is left over. Without the key, the dictionary is
decoded. -/
theorem list_not_skipped :
    FailsWith (.unusedTrailingBytes 1) (unmarshal creationDateTypes (.ofFields [creationDate])
      (marshal (.dict [(creationDateKey, .list [.str [120]])]))) ∧
    unmarshal creationDateTypes (.ofFields [creationDate]) (marshal (.dict [])) = .ok .zero :=
  ⟨by decide +kernel, rfl⟩

end ReliableBT.Bencode
