import ReliableBT.Bencode.Ignore

/-!
# Panics that leave the decoder (`bencode/decode.go`)

`Decode` turns what its functions throw into an error, but it raises a `runtime.Error` again. None
of its own functions throws one, so it comes from an `UnmarshalBencode`, which is called with the
text of a value that has been reached without an error. This is worked out for structs whose fields
are scalars or `Unmarshaler`s.

* `Crashes bad es`: among the entries is one that is `bad`, and those in front of it have an
  outcome. Texts and decoders do not occur in it.
* `returns_unmarshal_iff`: if the entries on which an `UnmarshalBencode` panics are the `bad` ones,
  `Unmarshal` of a dictionary returns unless its entries crash.
-/

namespace ReliableBT.Bencode

open Decimal List Option Prod

variable {τ α : Type}

/-- A number, a bool or a string. -/
def GoType.Scalar (g : GoType τ) : Prop :=
  g.unmarshaler = none ∧
    match g.kind with
    | .int _ | .uint _ | .bool | .string => True
    | _ => False

/-- A field that can be set and holds a scalar, or an `Unmarshaler` that is no pointer. -/
structure Field.Flat (T : τ → GoType τ) (f : Field τ) : Prop where
  settable : f.settable = true
  ptr : f.ptr = none
  ignores : f.ignores = false
  leaf : (T f.type).Scalar ∨ (T f.type).unmarshaler ≠ none ∧ (T f.type).elems = []

/-! ## Scalars -/

section Scalar
variable {T : τ → GoType τ} {g : GoType τ} (hg : g.Scalar)
include hg

theorem GoType.Scalar.elems_eq : g.elems = [] := by
  obtain ⟨kind, u⟩ := g
  cases kind <;> first | rfl | exact hg.2.elim

theorem GoType.Scalar.untagged : g.Untagged := by
  intro _ fields hk
  have h := hg.2
  rw [hk] at h
  exact h.elim

theorem GoType.Scalar.itemType_eq : Decoder.itemType T g = (g, none) := by
  obtain ⟨kind, u⟩ := g
  cases kind <;> first | rfl | exact hg.2.elim

theorem GoType.Scalar.kind_ne : g.kind ≠ .iface := by
  intro hk
  have h := hg.2
  rw [hk] at h
  exact h

theorem GoType.Scalar.getDictField_eq (key : Str) : getDictField g key = .error .dictInto := by
  obtain ⟨kind, u⟩ := g
  cases kind <;> first | rfl | exact hg.2.elim

end Scalar

namespace Decoder

/-! ## What throws no panic -/

/-- An error that `Decode` returns. -/
def Calm (e : Err) : Prop := e.panics = false

instance : DecidablePred Calm := fun e => inferInstanceAs (Decidable (e.panics = false))

/-- What is thrown is calm, and so is the error that is part of the result. -/
def Quiet (err : α → Option Err) : Except Err (α × Decoder) → Prop :=
  Ends Calm fun a => ∀ e ∈ err a.1, Calm e

variable {e : Err} {fuel n o : ℕ} {d : Decoder} {T : τ → GoType τ} {g : GoType τ} {m : Int64}
  {r buf : Str} {err : Option Err} {xs : List Val}

theorem Plain.calm (h : Plain e) : Calm e := by
  cases e <;> first | rfl | exact h.elim

theorem Reads.quiet {err : α → Option Err} {x : Except Err (α × Decoder)} (h : Reads err n x) :
    Quiet err x :=
  h.mono (fun _ => Plain.calm) fun _ ha e he => (ha.2 e he).calm

theorem storeList_calm (h : ∀ e ∈ err, Calm e) : ∀ e ∈ (storeList g err xs).1, Calm e := by
  rw [storeList.eq_def]
  split
  · exact h
  · exact h
  · split
    · exact h
    · rintro _ ⟨⟩
    · rintro _ ⟨⟩
      rfl

theorem indirect_of_elems (h : g.elems = []) : (g.indirect T).1 = g := by
  rw [GoType.indirect]
  split
  · next hk => simp [GoType.elems, hk] at h
  · rfl

theorem tagFree_of_elems (h : g.elems = []) (hg : g.Untagged) : TagFree T g := by
  intro g' hg'
  rcases Relation.ReflTransGen.cases_head hg' with rfl | ⟨_, ⟨e, he, -⟩, -⟩
  · exact hg
  · rw [h] at he
    cases he

/-- **No panic** where a scalar is stored, whatever the input. -/
theorem quiet_scalar (T : τ → GoType τ) (fuel : ℕ) {g : GoType τ} (hg : g.Scalar) :
    (∀ d, Quiet Parsed.err (parseValue T fuel g d)) ∧
    (∀ xs d, Quiet fst (parseItems T fuel (g, none) xs d)) ∧
    ∀ v d, Quiet fst (parseDict T fuel g v d) := by
  induction fuel generalizing g with
  | zero =>
    refine ⟨fun d => ?_, fun xs d => ?_, fun v d => ?_⟩
    · rw [parseValue]
      exact rfl
    · rw [parseItems]
      exact rfl
    · rw [parseDict]
      exact rfl
  | succ fuel ih =>
    obtain ⟨value, items, entries⟩ := ih hg
    refine ⟨fun d => ?_, fun xs d => ?_, fun v d => ?_⟩
    · have hind := indirect_of_elems (T := T) hg.elems_eq
      have hu : (g.indirect T).1.unmarshaler = none := by rw [hind, hg.1]
      have hk : (g.indirect T).1.kind ≠ .iface := by rw [hind]; exact hg.kind_ne
      obtain ⟨rest, o, buf, m⟩ := d
      cases rest with
      | nil =>
        rw [parseValue_nil hu hk]
        rintro _ ⟨⟩
        rfl
      | cons b r =>
        rw [parseValue_cons hu hk, hind]
        split
        · rintro _ ⟨⟩
        split
        · exact (entries .zero _).elim (fun _ he => he) fun _ h => h
        split
        · rw [hg.itemType_eq]
          exact (items [] _).elim (fun _ he => he) fun _ h => storeList_calm h
        split
        · exact reads_parseInt.quiet.elim (fun _ he => he) fun _ h => h
        split
        · exact (reads_parseString T).quiet.elim (fun _ he => he) fun _ h => h
        · exact rfl
    · rw [parseItems, ← room, if_pos (room_none xs)]
      refine (value d).elim (fun _ he => he) ?_
      rintro ⟨⟨ok, err, x⟩, d₁⟩ hcalm
      cases err with
      | some e => exact hcalm
      | none =>
        cases ok with
        | false => exact hcalm
        | true => exact items _ d₁
    · rw [parseDict]
      refine ((ih (g := .string) ⟨rfl, trivial⟩).1 d).elim (fun _ he => he) ?_
      rintro ⟨⟨ok, err, key⟩, d₁⟩ -
      cases err with
      | some e =>
        rintro _ ⟨⟩
        rfl
      | none =>
        cases ok with
        | false => rintro _ ⟨⟩
        | true =>
          simp only [hg.getDictField_eq]
          rintro _ ⟨⟩
          rfl

end Decoder

open Decoder

/-! ## Entries that crash -/

/-- Among the entries is one that is `bad` and is reached without an error, when they are decoded
into a struct type `g`. -/
def Crashes (T : τ → GoType τ) (g : GoType τ) (bad : Str → Value → Prop)
    (es : List (Str × Value)) (v : Val) : Prop :=
  ∃ before key x after, es = before ++ (key, x) :: after ∧ bad key x ∧
    (outcomeEntries T g before v []).isSome

/-- An entry whose value panics the `UnmarshalBencode` of its field. -/
def Panicking (T : τ → GoType τ) (fields : List (Field τ)) (key : Str) (x : Value) : Prop :=
  ∃ f i unmarshalBencode, getStructFieldForKey fields key = some (f, i) ∧
    (T f.type).unmarshaler = some unmarshalBencode ∧ unmarshalBencode (marshal x) = .error .runtime

/-- A panic if `p` holds, and a quiet end if not. -/
def PanicsIff (p : Prop) (err : α → Option Err) (x : Except Err (α × Decoder)) : Prop :=
  (p ∧ x = .error .runtimeError) ∨ (¬ p ∧ Quiet err x)

variable {T : τ → GoType τ} {fields : List (Field τ)} {bad : Str → Value → Prop} {key : Str}
  {x : Value} {v : Val} {m : Int64} {f : Field τ} {i : ℕ} {p q : Prop}

theorem PanicsIff.congr {err : α → Option Err} {y : Except Err (α × Decoder)}
    (h : PanicsIff p err y) (hpq : p ↔ q) : PanicsIff q err y := by
  rwa [PanicsIff, ← hpq]

theorem outcomeEntries_isSome (g : GoType τ) (es : List (Str × Value)) (v : Val) (b b' : Str) :
    (outcomeEntries T g es v b).isSome = (outcomeEntries T g es v b').isSome := by
  cases es with
  | nil => rfl
  | cons e es =>
    rw [outcomeEntries, outcomeEntries]

theorem crashes_cons {g : GoType τ} {es : List (Str × Value)} :
    Crashes T g bad ((key, x) :: es) v ↔ bad key x ∨
      ∃ w b, outcomeEntries T g [(key, x)] v [] = some (w, b) ∧ Crashes T g bad es w := by
  constructor
  · rintro ⟨_ | ⟨e, before⟩, k, y, after, heq, hbad, hsome⟩
    · cases heq
      exact .inl hbad
    · cases heq
      rw [← singleton_append, outcomeEntries_append] at hsome
      obtain ⟨w, hw⟩ := isSome_iff_exists.mp hsome
      obtain ⟨⟨v', b⟩, hfirst, hrest⟩ := bind_eq_some_iff.mp hw
      refine .inr ⟨v', b, hfirst, before, k, y, after, rfl, hbad, ?_⟩
      rw [outcomeEntries_isSome _ _ _ [] b, hrest]
      rfl
  · rintro (hbad | ⟨w, b, hfirst, before, k, y, after, rfl, hbad, hsome⟩)
    · exact ⟨[], key, x, es, rfl, hbad, by rw [outcomeEntries]; rfl⟩
    · refine ⟨(key, x) :: before, k, y, after, rfl, hbad, ?_⟩
      rw [← singleton_append, outcomeEntries_append, hfirst, bind_some,
        outcomeEntries_isSome _ _ _ _ []]
      exact hsome

theorem flat_of_field (hflat : ∀ f ∈ fields, f.Flat T)
    (h : getStructFieldForKey fields key = some (f, i)) : f.Flat T :=
  hflat f (mem_of_getElem? (getElem_of_field h))

theorem not_panicking (hflat : ∀ f ∈ fields, f.Flat T) {w : Val × Str}
    (h : outcomeEntries T (.ofFields fields) [(key, x)] v [] = some w) :
    ¬ Panicking T fields key x := by
  rintro ⟨f, i, unmarshalBencode, hf, hu, hpanic⟩
  rcases outcomeEntries_cons_some h with ⟨hnone, -⟩ | ⟨f', i', err, y, b, hf', hout, -⟩
  · simp [hnone] at hf
  · rw [hf] at hf'
    cases hf'
    have hind : ((T f.type).indirect T).1 = T f.type := by
      rcases (flat_of_field hflat hf).leaf with hs | ⟨-, helems⟩
      · exact indirect_of_elems hs.elems_eq
      · exact indirect_of_elems helems
    rw [← hind] at hu
    cases x <;> rw [outcome, outcomeAt_unmarshaler hu, hpanic] at hout <;> cases hout

theorem parseValue_stops {g : GoType τ} {d : Decoder} {pd : Parsed} {fuel o : ℕ} {buf r : Str}
    (hx : WellFormed (strLimit m) x) (hg : TagFree T g) (hraw : Raw buf)
    (hlost : ∀ w b, outcome T g x buf ≠ some ((none, w), b))
    (hf : 2 * (marshal x).length ≤ fuel + 1)
    (hp : parseValue T fuel g ⟨marshal x ++ r, o, buf, m⟩ = .ok (pd, d)) :
    ∃ e, pd.err = some e := by
  cases hout : outcome T g x buf with
  | none =>
    obtain ⟨e, he, -⟩ := parseValue_lost T x hx hg hraw hout _ hf _ _ _ _ hp
    exact ⟨e, he⟩
  | some w =>
    obtain ⟨⟨err, w⟩, b⟩ := w
    rw [parseValue_outcome T x hx hout _ hf] at hp
    cases hp
    cases err with
    | some e => exact ⟨e, rfl⟩
    | none => exact absurd hout (hlost w b)

/-- **An entry that is not stored** ends the dictionary, with a panic or an error. -/
theorem parseDict_entry (hflat : ∀ f ∈ fields, f.Flat T) (hk : key.length ≤ strLimit m)
    (hx : WellFormed (strLimit m) x)
    (hnone : outcomeEntries T (.ofFields fields) [(key, x)] v [] = none) (fuel : ℕ)
    (hf : 2 * (marshal x).length ≤ fuel + 2) (r : Str) (o : ℕ) (buf : Str) :
    PanicsIff (Panicking T fields key x) fst
      (parseDict T (fuel + 2) (.ofFields fields) v
        ⟨reflectString key ++ (marshal x ++ r), o, buf, m⟩) := by
  rw [outcomeEntries_ofFields] at hnone
  split at hnone
  · cases hnone
  next f i hfield =>
  have hflat := flat_of_field hflat hfield
  have hset (w : Val) : setField fields f i v w = .ok (.struct ((i, w) :: v.slots)) := by
    rw [setField, hflat.ptr, hflat.settable]
    rfl
  rw [parseDict_field (getDictField_ofFields hfield) hk, hflat.ignores]
  rcases hflat.leaf with hs | ⟨hu, helems⟩
  · -- a scalar: an error, thrown or returned
    have hnot : ¬ Panicking T fields key x := by
      rintro ⟨f', i', unmarshalBencode, hf', hu, -⟩
      rw [hfield] at hf'
      cases hf'
      simp [hs.1] at hu
    refine .inr ⟨hnot, ?_⟩
    have htag : TagFree T (T f.type) := tagFree_of_elems hs.elems_eq hs.untagged
    have hlost : ∀ w b, outcome T (T f.type) x [] ≠ some ((none, w), b) := by
      intro w b hout
      simp only [hout, hset, outcomeEntries] at hnone
      cases hnone
    refine ((quiet_scalar T (fuel + 1) hs).1 _).elim_eq (fun _ _ he => he) ?_
    rintro ⟨p, d⟩ hp -
    obtain ⟨e, he⟩ := parseValue_stops hx htag .nil hlost (by omega) hp
    have huncaught : p.uncaught false = some e := by simp [Parsed.uncaught, he]
    simp only [huncaught]
    rintro _ ⟨⟩
    rfl
  · -- an `Unmarshaler`: what it says
    obtain ⟨unmarshalBencode, hsome⟩ := ne_none_iff_exists'.mp hu
    have hind : ((T f.type).indirect T).1 = T f.type := indirect_of_elems helems
    have hind' : ((T f.type).indirect T).1.unmarshaler = some unmarshalBencode := by
      rw [hind, hsome]
    rw [parseValue_unmarshaler hind' hx (by omega)]
    cases hres : unmarshalBencode (marshal x) with
    | ok w =>
      have hout : outcome T (T f.type) x [] =
          some ((none, ((T f.type).indirect T).2 w), marshal x) := by
        cases x <;> rw [outcome, outcomeAt_unmarshaler hind', hres] <;> rfl
      simp only [hout, hset, outcomeEntries] at hnone
      cases hnone
    | error refusal =>
      cases refusal with
      | runtime => exact .inl ⟨⟨f, i, unmarshalBencode, hfield, hsome, hres⟩, rfl⟩
      | error =>
        refine .inr ⟨?_, rfl⟩
        rintro ⟨f', i', unmarshalBencode', hf', hu', hres'⟩
        rw [hfield] at hf'
        cases hf'
        rw [hsome] at hu'
        cases hu'
        rw [hres] at hres'
        cases hres'

/-- **Entries** panic if they crash, at the first that is bad. -/
theorem parseDict_panicsIff (hflat : ∀ f ∈ fields, f.Flat T) {es : List (Str × Value)}
    (hes : ∀ e ∈ es, e.1.length ≤ strLimit m ∧ WellFormed (strLimit m) e.2) (v : Val) (fuel : ℕ)
    (hf : 2 * (marshalEntries es).length + 2 ≤ fuel) (r : Str) (o : ℕ) (buf : Str) :
    PanicsIff (Crashes T (.ofFields fields) (Panicking T fields) es v) fst
      (parseDict T fuel (.ofFields fields) v ⟨marshalEntries es ++ 101 :: r, o, buf, m⟩) := by
  induction es generalizing v fuel o buf with
  | nil =>
    refine .inr ⟨by simp [Crashes], ?_⟩
    rw [parseDict_outcome (forall_mem_nil _) (by rw [outcomeEntries]) fuel
      (by simpa using hf)]
    rintro _ ⟨⟩
  | cons e es ih =>
    obtain ⟨k, x⟩ := e
    obtain ⟨hkx, hes⟩ := forall_mem_cons.mp hes
    obtain ⟨hk, hx⟩ : k.length ≤ strLimit m ∧ WellFormed (strLimit m) x := hkx
    have hpos := length_marshal_pos x
    rw [marshalEntries, length_append, length_append] at hf
    rw [marshalEntries, append_assoc, append_assoc]
    cases hfirst : outcomeEntries T (.ofFields fields) [(k, x)] v [] with
    | none =>
      obtain ⟨fuel, rfl⟩ : ∃ j, fuel = j + 2 := ⟨fuel - 2, by omega⟩
      refine (parseDict_entry hflat hk hx hfirst fuel (by omega) _ o buf).congr ?_
      simp [crashes_cons, hfirst]
    | some w =>
      obtain ⟨w, b⟩ := w
      obtain ⟨fuel, rfl⟩ : ∃ j, fuel = j + 1 := ⟨fuel - 1, by omega⟩
      have hstored : outcomeEntries T (.ofFields fields) [(k, x)] v buf = some (w, b) := by
        rw [outcomeEntries] at hfirst ⊢
        exact hfirst
      have hread := parseDict_entries
        ((forall_mem_singleton (a := (k, x))).mpr ⟨parseValue_outcome T x hx, hk, hx⟩)
        hstored fuel
        (by simp [marshalEntries]; omega) (marshalEntries es ++ 101 :: r) o
      simp only [marshalEntries, append_nil, append_assoc, length_singleton] at hread
      rw [hread]
      refine (ih hes w fuel (by omega) _ b).congr ?_
      simp [crashes_cons, hfirst, not_panicking hflat hfirst]

/-! ## `Unmarshal` -/

/-- `Unmarshal` returns a value or an error: it neither panics nor goes on for ever. -/
def Returns : Except Err Val → Prop := Ends (fun e => Calm e ∧ e ≠ .outOfFuel) fun _ => True

instance : DecidablePred Returns := inferInstanceAs (DecidablePred (Ends _ _))

/-- **Panics of `Unmarshal`** of a dictionary, whatever follows it, into a struct with flat fields,
where the entries that panic are the bad ones. -/
theorem returns_unmarshal_iff (hflat : ∀ f ∈ fields, f.Flat T) {es : List (Str × Value)}
    (hes : WellFormed (strLimit 0) (.dict es)) (r : Str)
    (hbad : ∀ key x, WellFormed (strLimit 0) x → (Panicking T fields key x ↔ bad key x)) :
    Returns (unmarshal T (.ofFields fields) (marshal (.dict es) ++ r)) ↔
      ¬ Crashes T (.ofFields fields) bad es .zero := by
  have hu : ((GoType.ofFields fields).indirect T).1.unmarshaler = none := rfl
  have hk : ((GoType.ofFields fields).indirect T).1.kind ≠ .iface := by
    simp [GoType.ofFields, GoType.indirect]
  have hwf := wellFormedEntries_iff.mp hes.2
  have htext : marshal (.dict es) ++ r = 100 :: (marshalEntries es ++ 101 :: r) := by
    simp [marshal]
  have hfuel := decode_ne_outOfFuel T (.ofFields fields) ⟨marshal (.dict es) ++ r, 0, [], 0⟩
  have hentries := (parseDict_panicsIff hflat hwf .zero (2 * (marshal (.dict es) ++ r).length + 1)
    (by simp [marshal]) r 1 []).congr <|
      exists_congr fun _ => exists_congr fun k => exists_congr fun x => exists_congr fun _ =>
        and_congr_right fun heq => and_congr_left fun _ => hbad k x (hwf (k, x) (by simp [heq])).2
  rw [unmarshal]
  rcases hentries with ⟨hcrash, heq⟩ | ⟨hcalm, hquiet⟩
  · refine iff_of_false ?_ (not_not.mpr hcrash)
    rw [decode, htext, parseValue_cons hu hk, if_neg (by decide), if_pos rfl, ← htext]
    erw [heq]
    rintro ⟨⟨⟩, -⟩
  · refine iff_of_true ?_ hcalm
    have hcalm : Ends Calm (fun _ => True)
        (decode T (.ofFields fields) ⟨marshal (.dict es) ++ r, 0, [], 0⟩) := by
      rw [decode, htext, parseValue_cons hu hk, if_neg (by decide), if_pos rfl, ← htext]
      refine hquiet.elim (fun e he => ?_) ?_
      · cases e <;> exact he
      · rintro ⟨⟨_ | e, w⟩, d⟩ hcalm
        · trivial
        · exact hcalm e rfl
    refine hcalm.elim_eq (fun e he hcalm => ⟨hcalm, ?_⟩) ?_
    · rintro rfl
      exact hfuel he
    · rintro ⟨w, d⟩ - -
      dsimp only
      split
      · trivial
      · exact ⟨rfl, Err.noConfusion⟩

end ReliableBT.Bencode
