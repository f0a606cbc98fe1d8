import ReliableBT.Bencode.Fuel

/-!
# Input that ends too early

`Decode` on an input that has no bytes left, or that ends inside a value. `parseValue` returns
`io.EOF` when there is not a single byte, and everything deeper throws: the functions for an
`interface{}`, the ones for an `Unmarshaler`, and the readers of a token. `Decode` makes
`io.ErrUnexpectedEOF` of an `io.EOF` that was thrown, and `parseDict` wraps what it returns. But
`parseList` returns the error of an item as it is.

* `reportsEOF` are the targets for which `parseValue` looks at the first byte itself.
* `eofAt` says that the input ends between two items of a list, itself inside of nothing but lists,
  where the items have such a target and those before are stored.
* `classified_iff`: `Decode` returns `io.EOF` for an empty input and something else for an input
  that ends inside a value **iff** the target reports the end of an empty input and `eofAt` does
  not hold.
-/

open List

namespace ReliableBT.Bencode

open Decimal Decoder

variable {τ : Type}

/-! ## Where the end is reported as `io.EOF` -/

/-- The target is neither an `interface{}` nor an `Unmarshaler`. -/
def reportsEOF (T : τ → GoType τ) (g : GoType τ) : Bool :=
  match (g.indirect T).1.unmarshaler, (g.indirect T).1.kind with
  | some _, _ => false
  | none, .iface => false
  | none, _ => true

mutual

/-- `Decode` returns `io.EOF` for the beginning `p` of the text of a value. -/
def eofAt (T : τ → GoType τ) : GoType τ → Value → Str → Str → Bool
  | g, .list xs, buf, p =>
    reportsEOF T g && eofInItems T (itemType T (g.indirect T).1) xs [] buf p.tail
  | _, _, _, _ => false

/-- `parseList` returns `io.EOF` for the beginning `p` of the text of the items and the end symbol,
after the items `ys`. -/
def eofInItems (T : τ → GoType τ) :
    GoType τ × Option ℕ → List Value → List Val → Str → Str → Bool
  | (g, len), [], ys, _, p => room len ys && decide (p = []) && reportsEOF T g
  | (g, len), x :: xs, ys, buf, p =>
    room len ys &&
      if p = [] then reportsEOF T g
      else if p.length < (marshal x).length then eofAt T g x buf p
      else
        match outcome T g x buf with
        | some ((none, y), buf) =>
          eofInItems T (g, len) xs (ys ++ [y]) buf (p.drop (marshal x).length)
        | _ => false

end

/-! ## Beginnings of a text -/

theorem split_of_append {sep : UInt8} {u s p q : Str} (hu : sep ∉ u)
    (h : u ++ sep :: s = p ++ q) : sep ∉ p ∨ ∃ r, p = u ++ sep :: r ∧ s = r ++ q := by
  rcases append_eq_append_iff.mp h with ⟨r, rfl, hr⟩ | ⟨r, rfl, hr⟩
  · cases r with
    | nil => exact .inl (by simpa using hu)
    | cons c r =>
      obtain ⟨rfl, rfl⟩ : sep = c ∧ s = r ++ q := by simpa using hr
      exact .inr ⟨r, rfl, rfl⟩
  · exact .inl fun hp => hu (mem_append_left _ hp)

theorem cut_cases {u s p q : Str} (h : u ++ s = p ++ q) :
    (∃ q', q' ≠ [] ∧ u = p ++ q' ∧ p.length < u.length) ∨ (∃ p', p = u ++ p' ∧ s = p' ++ q) := by
  rcases append_eq_append_iff.mp h with ⟨r, rfl, hr⟩ | ⟨r, rfl, hr⟩
  · exact .inr ⟨r, rfl, hr⟩
  · cases r with
    | nil => exact .inr ⟨[], by simp, by simpa using hr.symm⟩
    | cons c r => exact .inl ⟨c :: r, by simp, rfl, by simp⟩

namespace Decoder

/-! ## Tokens -/

variable {p q : Str} {b : UInt8} {u s : Str} {n : ℕ} {d : Decoder} {m : Int64} {v : Value}
  {buf : Str} {d' : Decoder} {fuel : ℕ} {eof : Bool} {x : Except Err (Parsed × Decoder)}
  {T : τ → GoType τ} {g : GoType τ} {len : Option ℕ}

theorem notMem_of_cut {n : ℤ} (hq : q ≠ []) (h : formatInt n ++ [101] = p ++ q) : 101 ∉ p := by
  have hs : 101 ∉ formatInt n := notMem_formatInt (by decide) (by decide) n
  rcases split_of_append hs h with hp | ⟨r, -, hr⟩
  · exact hp
  · exact absurd (append_eq_nil_iff.mp hr.symm).2 hq

theorem reflectString_cut (h : formatNat s.length = b :: u) (hq : q ≠ [])
    (hp : u ++ 58 :: s = p ++ q) : 58 ∉ p ∨ ∃ r, p = u ++ 58 :: r ∧ r.length < s.length := by
  rcases split_of_append (colon_notMem h) hp with hp | ⟨r, rfl, rfl⟩
  · exact .inl hp
  · refine .inr ⟨r, rfl, ?_⟩
    have := length_pos_iff.mpr hq
    rw [length_append]
    omega

theorem readFull_short (h : d.rest.length < n) : ∃ e, readFull n d = .error e := by
  rw [readFull, if_neg (not_le.mpr h)]
  split <;> exact ⟨_, rfl⟩

theorem parseString_cut (T : τ → GoType τ) (g : GoType τ) (h : formatNat s.length = b :: u)
    (hq : q ≠ []) (hp : u ++ 58 :: s = p ++ q) (o : ℕ) (hs : s.length ≤ strLimit m) :
    ∃ e, parseString T g ⟨p, o, [b], m⟩ = .error e := by
  rcases reflectString_cut h hq hp with hp | ⟨r, rfl, hr⟩
  · obtain ⟨o', ho⟩ := parseStringLength_none (d := ⟨p, o, [b], m⟩) hp
    exact ⟨_, by rw [parseString, ho]; rfl⟩
  · obtain ⟨e, he⟩ := readFull_short (d := ⟨r, o + (u.length + 1), [], m⟩) hr
    rw [parseString, parseStringLength_formatNat h _ _ hs]
    simp only [bind, Except.bind, Int.toNat_natCast, he]
    exact ⟨_, rfl⟩

/-! ## Values for an `interface{}` and for an `Unmarshaler` -/

/-- **An `interface{}`** whose value is cut. -/
theorem parseValueInterface_cut (hq : q ≠ []) (hp : marshal v = p ++ q) (fuel o : ℕ)
    (hraw : Raw buf) : ∃ e, parseValueInterface fuel ⟨p, o, buf, m⟩ = .error e := by
  cases h : parseValueInterface fuel ⟨p, o, buf, m⟩ with
  | error e => exact ⟨e, rfl⟩
  | ok r =>
    obtain ⟨w, d'⟩ := r
    have hrest : p = text w ++ d'.rest := ((sound fuel).1 hraw h).2.rest
    rw [hrest, append_assoc] at hp
    cases w with
    | none =>
      obtain ⟨b, s, hbs, hb, -⟩ := marshal_cons v
      rw [hbs] at hp
      exact absurd (cons.inj hp).1 hb
    | some w =>
      have hnil := (marshal_append_inj v w [] _ (by rwa [append_nil])).2
      exact absurd (append_eq_nil_iff.mp hnil.symm).2 hq

/-- The decoder with more input after the one it has. -/
def more (q : Str) (d : Decoder) : Decoder := { d with rest := d.rest ++ q }

theorem readUntil_more {sep : UInt8} (h : readUntil sep d = .ok d') (q : Str) :
    readUntil sep (d.more q) = .ok (d'.more q) := by
  obtain ⟨rest, o, buf, m⟩ := d
  rcases exists_split sep rest with hs | ⟨u, r, hs, rfl⟩
  · obtain ⟨o', ho⟩ := readUntil_none (d := ⟨rest, o, buf, m⟩) hs
    rw [ho] at h
    cases h
  · rw [readUntil_eq hs] at h
    cases h
    rw [more, append_assoc, cons_append]
    exact readUntil_eq hs (r ++ q) o buf m

theorem copyN_more (h : copyN n d = .ok d') (q : Str) : copyN n (d.more q) = .ok (d'.more q) := by
  rw [copyN] at h ⊢
  split at h
  · next hn =>
    cases h
    have hn' : n ≤ (d.more q).rest.length := by
      rw [more, length_append]
      omega
    rw [if_pos hn']
    simp only [more, drop_append_of_le_length hn, take_append_of_le_length hn]
  · cases h

theorem readOneString_more (h : readOneString d = .ok d') (q : Str) :
    readOneString (d.more q) = .ok (d'.more q) := by
  rw [readOneString] at h ⊢
  cases hu : readUntil 58 d with
  | error e =>
    rw [hu] at h
    cases h
  | ok d₁ =>
    rw [hu] at h
    rw [readUntil_more hu q]
    dsimp only [bind, Except.bind, more] at h ⊢
    split at h
    · cases h
    · exact copyN_more h q

/-- **The text of a value does not depend on what follows it.** -/
theorem text_more (q : Str) (fuel : ℕ) :
    (∀ {d b d'}, readOneValue fuel d = .ok (b, d') →
      readOneValue fuel (d.more q) = .ok (b, d'.more q)) ∧
    ∀ {d d'}, readValues fuel d = .ok d' → readValues fuel (d.more q) = .ok (d'.more q) := by
  induction fuel with
  | zero => exact ⟨fun h => by simp [readOneValue] at h, fun h => by simp [readValues] at h⟩
  | succ fuel ih =>
    obtain ⟨value, loop⟩ := ih
    refine ⟨fun {d b d'} h => ?_, fun {d d'} h => ?_⟩
    · obtain ⟨rest, o, buf, m⟩ := d
      rw [readOneValue] at h ⊢
      cases rest with
      | nil => cases h
      | cons c rest =>
        dsimp only [more, cons_append] at h ⊢
        split_ifs at h ⊢
        · cases h
          rfl
        · split at h
          · cases h
          · next d₁ hd =>
            have hmore := loop hd
            rw [more] at hmore
            obtain ⟨_ | ⟨c', rest'⟩, o', buf', m'⟩ := d₁ <;> cases h
            rw [hmore]
            rfl
        · split at h
          · cases h
          · next d₁ hd =>
            have hmore := readUntil_more hd q
            rw [more] at hmore
            cases h
            rw [hmore]
            rfl
        · split at h
          · cases h
          · next d₁ hd =>
            have hmore := readOneString_more hd q
            rw [more] at hmore
            cases h
            rw [hmore]
            rfl
    · rw [readValues] at h ⊢
      cases hr : readOneValue fuel d with
      | error e =>
        rw [hr] at h
        cases h
      | ok r =>
        obtain ⟨_ | _, d₁⟩ := r
        · rw [hr] at h
          rw [value hr]
          cases h
          rfl
        · rw [hr] at h
          rw [value hr]
          exact loop h

theorem readOneValue_extend {fuel' : ℕ} (hf : fuel ≤ fuel') {r : Bool × Decoder}
    (h : readOneValue fuel d = .ok r) : readOneValue fuel' d = .ok r := by
  induction fuel', hf using Nat.le_induction with
  | base => exact h
  | succ fuel' _ ih =>
    rcases (extends_text fuel').1 d with he | he
    · rw [ih] at he
      cases he
    · rw [he, ih]

/-- **An `Unmarshaler`** whose value is cut: with the whole text, no less of it would be read. -/
theorem readOneValue_cut (hv : WellFormed (strLimit m) v) (hq : q ≠ []) (hp : marshal v = p ++ q)
    (fuel o : ℕ) (buf : Str) : ∃ e, readOneValue fuel ⟨p, o, buf, m⟩ = .error e := by
  cases h : readOneValue fuel ⟨p, o, buf, m⟩ with
  | error e => exact ⟨e, rfl⟩
  | ok r =>
    obtain ⟨b, d'⟩ := r
    have hmore := (text_more q (fuel + 2 * (p ++ q).length)).1 (readOneValue_extend (by omega) h)
    have hall := (text_marshal v hv).readOneValue (m := m) (fuel + 2 * (p ++ q).length)
      (by rw [hp]; omega) [] o buf
    rw [append_nil, hp] at hall
    have hrest : d'.rest ++ q = [] := by
      rw [more, hall] at hmore
      grind [more]
    exact absurd (append_eq_nil_iff.mp hrest).2 hq

/-! ## Values for the other targets -/

/-- An error, thrown or returned, that is a returned `io.EOF` just if `eof` holds. -/
structure Cut {α : Type} (eof : Bool) (err : α → Option Err) (x : Except Err (α × Decoder)) :
    Prop where
  thrown : ∀ e, x = .error e → eof = false
  returned : ∀ a d, x = .ok (a, d) → ∃ e, err a = some e ∧ (e = .eof ↔ eof = true)

section
variable {α : Type} {err : α → Option Err}

theorem Cut.error {e : Err} : Cut false err (.error e) :=
  ⟨fun _ _ => rfl, fun _ _ h => by cases h⟩

theorem Cut.ok {eof : Bool} {a : α} {d : Decoder} {e : Err} (ha : err a = some e)
    (he : e = .eof ↔ eof = true) : Cut eof err (.ok (a, d)) where
  thrown := fun _ h => by cases h
  returned := by
    rintro _ _ ⟨⟩
    exact ⟨e, ha, he⟩

theorem Cut.of_breaks {p : Err → Decoder → Prop} {x : Except Err (α × Decoder)}
    (h : Breaks err p x) : Cut false err x where
  thrown := fun _ _ => rfl
  returned := fun a d hx => by
    obtain ⟨e, ha, he, -⟩ := h a d hx
    exact ⟨e, ha, by simp [he]⟩

end

section
variable {T : τ → GoType τ} {g : GoType τ}

theorem reportsEOF_of_other (hu : (g.indirect T).1.unmarshaler = none)
    (hk : (g.indirect T).1.kind ≠ .iface) : reportsEOF T g = true := by
  simp only [reportsEOF, hu]

theorem parseValue_eof (fuel o : ℕ) (buf : Str) (m : Int64) :
    Cut (reportsEOF T g) Parsed.err (parseValue T (fuel + 1) g ⟨[], o, buf, m⟩) := by
  cases hu : (g.indirect T).1.unmarshaler with
  | some f =>
    have hr : reportsEOF T g = false := by simp only [reportsEOF, hu]
    rw [hr, parseValue]
    simp only [parseUnmarshaler, hu, readOneValue]
    exact .error
  | none =>
    by_cases hk : (g.indirect T).1.kind = .iface
    · have hr : reportsEOF T g = false := by simp only [reportsEOF, hu, hk]
      rw [hr, parseValue_iface_eq hu hk, parseValueInterface]
      exact .error
    · rw [reportsEOF_of_other hu hk, parseValue_nil hu hk]
      exact .ok rfl (by simp)

theorem parseValue_int_cut (hu : (g.indirect T).1.unmarshaler = none)
    (hk : (g.indirect T).1.kind ≠ .iface) {n : ℤ} {p q : Str} (hq : q ≠ [])
    (hp : formatInt n ++ [101] = p ++ q) (fuel o : ℕ) (buf : Str) (m : Int64) :
    ∃ e, parseValue T (fuel + 1) g ⟨105 :: p, o, buf, m⟩ = .error e := by
  obtain ⟨o', ho⟩ := readInt_none (d := ⟨p, o + 1, buf, m⟩) (notMem_of_cut hq hp)
  have he : parseInt (g.indirect T).1 ⟨p, o + 1, buf, m⟩ =
      .error (.syntaxError o' .unexpectedEOF) := by
    rw [parseInt, ho]
    rfl
  rw [parseValue_cons hu hk, if_neg (by decide), if_neg (by decide), if_neg (by decide), if_pos rfl,
    he]
  exact ⟨_, rfl⟩

theorem parseValue_str_cut (hu : (g.indirect T).1.unmarshaler = none)
    (hk : (g.indirect T).1.kind ≠ .iface) {s p q : Str} {m : Int64} (hs : s.length ≤ strLimit m)
    (hne : p ≠ []) (hq : q ≠ []) (hp : reflectString s = p ++ q) (fuel o : ℕ) (buf : Str) :
    ∃ e, parseValue T (fuel + 1) g ⟨p, o, buf, m⟩ = .error e := by
  obtain ⟨c, p, rfl⟩ := exists_cons_of_ne_nil hne
  obtain ⟨b, u, hbu, hb⟩ := formatNat_cons s.length
  obtain ⟨rfl, hp'⟩ : b = c ∧ u ++ 58 :: s = p ++ q := by
    simpa [reflectString, hbu] using hp
  have hnd : ∀ c : UInt8, ¬ isDigit c → b ≠ c := fun c hc h => hc (h ▸ hb)
  obtain ⟨e, he⟩ := parseString_cut T (g.indirect T).1 hbu hq hp' (o + 1) hs
  rw [parseValue_cons hu hk, if_neg (hnd 101 (by decide)), if_neg (hnd 100 (by decide)),
    if_neg (hnd 108 (by decide)), if_neg (hnd 105 (by decide)), if_pos hb, he]
  exact ⟨e, rfl⟩

end

/-- The text of a value, cut after its first byte at the earliest. -/
def ValueCut (T : τ → GoType τ) (m : Int64) (v : Value) : Prop :=
  ∀ {g : GoType τ} {buf p q : Str}, TagFree T g → Raw buf → p ≠ [] → q ≠ [] → marshal v = p ++ q →
    ∀ fuel o, 2 * p.length + 1 ≤ fuel →
    Cut (eofAt T g v buf p) Parsed.err (parseValue T fuel g ⟨p, o, buf, m⟩)

theorem Cut.item (h : Cut eof Parsed.err x) (ys : List Val)
    (next : Val → Decoder → Except Err ((Option Err × List Val) × Decoder)) :
    Cut eof (fun a => a.1)
      (match x with
      | .error e => .error e
      | .ok (⟨_, some e, y⟩, d) => .ok ((some e, ys ++ [y]), d)
      | .ok (⟨false, none, _⟩, d) => .ok ((none, ys), d)
      | .ok (⟨true, none, y⟩, d) => next y d) := by
  split
  · rw [h.thrown _ rfl]
    exact .error
  · obtain ⟨e', he', heof⟩ := h.returned _ _ rfl
    cases he'
    exact .ok rfl heof
  · obtain ⟨e', he', -⟩ := h.returned _ _ rfl
    cases he'
  · obtain ⟨e', he', -⟩ := h.returned _ _ rfl
    cases he'

theorem eofInItems_noRoom {ys : List Val} (h : room len ys = false) (xs : List Value)
    (buf p : Str) :
    eofInItems T (g, len) xs ys buf p = false := by
  cases xs <;> simp [eofInItems, h]

/-- **Items** at the end of the input: there is no item, and no end symbol. -/
theorem parseItems_eof (fuel o : ℕ) (ys : List Val) (buf : Str) (m : Int64) :
    Cut (room len ys && reportsEOF T g) (fun a => a.1)
      (parseItems T (fuel + 2) (g, len) ys ⟨[], o, buf, m⟩) := by
  rw [parseItems, ← room]
  cases hroom : room len ys with
  | true =>
    simp only [if_true, Bool.true_and]
    exact (parseValue_eof fuel o buf m).item ys fun y d =>
      parseItems T (fuel + 1) (g, len) (ys ++ [y]) d
  | false =>
    simp only [Bool.false_eq_true, if_false, Bool.false_and, parseValueInterface]
    exact .error

theorem parseItems_cut {xs : List Value} {item : GoType τ × Option ℕ} (hg : TagFree T item.1)
    (hxs : ∀ x ∈ xs, ValueCut T m x ∧ WellFormed (strLimit m) x) (ys : List Val) (hraw : Raw buf)
    (hq : q ≠ []) (hp : marshalItems xs ++ [101] = p ++ q) (fuel o : ℕ)
    (hf : 2 * p.length + 2 ≤ fuel) :
    Cut (eofInItems T item xs ys buf p) (fun a => a.1)
      (parseItems T fuel item ys ⟨p, o, buf, m⟩) := by
  obtain ⟨g, len⟩ := item
  induction xs generalizing ys buf p fuel o with
  | nil =>
    obtain ⟨fuel, rfl⟩ : ∃ k, fuel = k + 2 := ⟨fuel - 2, by omega⟩
    obtain rfl : p = [] := by
      rcases append_eq_singleton_iff.mp hp.symm with h | h
      · exact h.1
      · exact absurd h.2 hq
    simpa [eofInItems] using parseItems_eof (T := T) (g := g) fuel o ys buf m
  | cons x xs ih =>
    obtain ⟨hx, hwf⟩ := hxs x (mem_cons_self ..)
    have hxs := fun y hy => hxs y (mem_cons_of_mem x hy)
    have hpos := length_marshal_pos x
    obtain ⟨fuel, rfl⟩ : ∃ k, fuel = k + 2 := ⟨fuel - 2, by omega⟩
    by_cases hne : p = []
    · subst hne
      simpa [eofInItems] using parseItems_eof (T := T) (g := g) fuel o ys buf m
    rw [marshalItems, append_assoc] at hp
    cases hroom : room len ys with
    | false =>
      rw [eofInItems_noRoom hroom, parseItems, ← room, hroom]
      simp only [Bool.false_eq_true, if_false]
      rcases cut_cases hp with ⟨q', hq', hx', -⟩ | ⟨p', rfl, hp'⟩
      · obtain ⟨e, he⟩ := parseValueInterface_cut hq' hx' (fuel + 2) o hraw
        rw [he]
        exact .error
      · rw [length_append] at hf
        by_cases hb : buf = [] ∨ hollow x
        · rw [parseValueInterface_marshal x hwf hb _ (by omega)]
          have hcut := ih hxs ys hraw hp' (fuel + 1) (o + (marshal x).length) (by omega)
          rwa [eofInItems_noRoom hroom] at hcut
        · obtain ⟨hnb, hh⟩ := not_or.mp hb
          obtain ⟨e, he⟩ := parseValueInterface_raw hraw hnb x hwf hh (fuel + 2) (by omega) p' o
          rw [he]
          exact .error
    | true =>
      rw [eofInItems, if_neg hne, parseItems, ← room, hroom]
      simp only [if_true, Bool.true_and]
      rcases cut_cases hp with ⟨q', hq', hx', hlt⟩ | ⟨p', rfl, hp'⟩
      · rw [if_pos hlt]
        exact (hx hg hraw hne hq' hx' (fuel + 1) o (by omega)).item ys
          fun y d => parseItems T (fuel + 1) (g, len) (ys ++ [y]) d
      · rw [length_append] at hf
        rw [if_neg (by simp), drop_left]
        cases hout : outcome T g x buf with
        | none =>
          have hlost := parseValue_lost T x hwf hg hraw hout (fuel + 1) (by omega) p' o
          exact (Cut.of_breaks hlost).item ys
            fun y d => parseItems T (fuel + 1) (g, len) (ys ++ [y]) d
        | some w =>
          obtain ⟨⟨err, y⟩, buf'⟩ := w
          rw [parseValue_outcome T x hwf hout (fuel + 1) (by omega)]
          cases err with
          | none => exact ih hxs _ (outcome_raw x hg hraw hout) hp' (fuel + 1) _ (by omega)
          | some e =>
            exact .ok rfl (by simp [Err.ne_eof (outcome_isUnmarshalType hout)])

theorem Cut.entry (h : Cut eof Parsed.err x) (key : Str) (v : Val)
    (next : Parsed → Decoder → Except Err ((Option Err × Val) × Decoder)) :
    Cut false (fun a => a.1)
      (match x with
      | .error e => .error e
      | .ok (p, d) =>
        match p.uncaught false with
        | some e => .ok ((some (.keyValue key e), v), d)
        | none => next p d) := by
  split
  · exact .error
  · next p d =>
    obtain ⟨e, he, -⟩ := h.returned _ _ rfl
    have hun : p.uncaught false = some e := by simp [Parsed.uncaught, he]
    rw [hun]
    exact .ok rfl (by simp)

/-- **Entries**, cut: the error is never a bare `io.EOF`. -/
theorem parseDict_cut {T : τ → GoType τ} {m : Int64} {es : List (Str × Value)} {g : GoType τ}
    (hg : TagFree T g) (hu : g.unmarshaler = none)
    (hes : ∀ e ∈ es, ValueCut T m e.2 ∧ e.1.length ≤ strLimit m ∧ WellFormed (strLimit m) e.2)
    (v : Val) (buf : Str) {p q : Str} (hq : q ≠ []) (hp : marshalEntries es ++ [101] = p ++ q)
    (fuel o : ℕ) (hf : 2 * p.length + 2 ≤ fuel) :
    Cut false (fun a => a.1) (parseDict T fuel g v ⟨p, o, buf, m⟩) := by
  have hkey : (GoType.string.indirect T).1.kind ≠ .iface := by
    simp [GoType.indirect, GoType.string]
  have hend : ∀ fuel o v buf,
      Cut false (fun a => a.1) (parseDict T (fuel + 2) g v ⟨[], o, buf, m⟩) := by
    intro fuel o v buf
    rw [parseDict, parseValue_nil rfl hkey]
    exact .ok rfl (by simp)
  induction es generalizing v buf p fuel o with
  | nil =>
    obtain ⟨fuel, rfl⟩ : ∃ k, fuel = k + 2 := ⟨fuel - 2, by omega⟩
    obtain rfl : p = [] := by
      rcases append_eq_singleton_iff.mp hp.symm with h | h
      · exact h.1
      · exact absurd h.2 hq
    exact hend fuel o v buf
  | cons e es ih =>
    obtain ⟨k, x⟩ := e
    obtain ⟨hx, hk, hwf⟩ : ValueCut T m x ∧ k.length ≤ strLimit m ∧ WellFormed (strLimit m) x :=
      hes _ (mem_cons_self ..)
    have hpos := length_marshal_pos x
    obtain ⟨fuel, rfl⟩ : ∃ k, fuel = k + 2 := ⟨fuel - 2, by omega⟩
    replace ih := @ih fun e he => hes e (mem_cons_of_mem _ he)
    by_cases hne : p = []
    · subst hne
      exact hend fuel o v buf
    rw [marshalEntries, append_assoc, append_assoc] at hp
    rcases cut_cases hp with ⟨q', hq', hk', -⟩ | ⟨p', rfl, hp'⟩
    · obtain ⟨e, he⟩ := parseValue_str_cut (T := T) (g := .string) rfl hkey hk hne hq' hk' fuel o
        buf
      rw [parseDict, he]
      exact .error
    rw [length_append] at hf
    rw [parseDict, parseValue_key T hk]
    simp only [Val.text]
    cases hfield : getDictField g k with
    | error e =>
      refine .ok rfl ?_
      rw [getDictField] at hfield
      repeat' split at hfield
      all_goals cases hfield
      simp
    | ok df =>
      obtain ⟨type, get, ignores⟩ := df
      cases type with
      | none =>
        rcases cut_cases hp' with ⟨q', hq', hx', -⟩ | ⟨p'', rfl, hp''⟩
        · obtain ⟨e, he⟩ := parseValueInterface_cut hq' hx' (fuel + 2)
            (o + (reflectString k).length) .nil (m := m)
          simp only [he]
          exact .error
        · rw [length_append] at hf
          rw [parseValueInterface_marshal x hwf (.inl rfl) _ (by omega)]
          exact ih _ _ hp'' (fuel + 1) _ (by omega)
      | some elem =>
        obtain ⟨rfl, helem⟩ := hg.field hu hfield
        rcases cut_cases hp' with ⟨q', hq', hx', -⟩ | ⟨p'', rfl, hp''⟩
        · by_cases hne' : p' = []
          · subst hne'
            exact (parseValue_eof fuel _ [] m).entry k v _
          · exact (hx helem .nil hne' hq' hx' (fuel + 1) _ (by omega)).entry k v _
        · rw [length_append] at hf
          cases hout : outcome T (T elem) x [] with
          | none =>
            have hlost := parseValue_lost T x hwf helem .nil hout (fuel + 1) (by omega) p''
              (o + (reflectString k).length)
            exact (Cut.of_breaks hlost).entry k v _
          | some w =>
            obtain ⟨⟨err, w⟩, buf'⟩ := w
            simp only [parseValue_outcome T x hwf hout (fuel + 1) (by omega) p'']
            cases err with
            | some e =>
              have hun : Parsed.uncaught ⟨true, some e, w⟩ false = some e := by
                simp [Parsed.uncaught]
              simp only [hun]
              exact .ok rfl (by simp)
            | none =>
              have hun : Parsed.uncaught ⟨true, none, w⟩ false = none := rfl
              simp only [hun, if_true]
              cases hget : get v w with
              | error e => exact .error
              | ok v' => exact ih _ _ hp'' (fuel + 1) _ (by omega)

theorem parseValue_cutAt (hv : WellFormed (strLimit m) v) (hraw : Raw buf) (hq : q ≠ [])
    (hp : marshal v = p ++ q) {o : ℕ} (hf : 2 * p.length + 1 ≤ fuel)
    (heof : reportsEOF T g = false → eof = false)
    (hother : (g.indirect T).1.unmarshaler = none → (g.indirect T).1.kind ≠ .iface →
      Cut eof Parsed.err (parseValue T fuel g ⟨p, o, buf, m⟩)) :
    Cut eof Parsed.err (parseValue T fuel g ⟨p, o, buf, m⟩) := by
  obtain ⟨fuel, rfl⟩ : ∃ k, fuel = k + 1 := ⟨fuel - 1, by omega⟩
  cases hu : (g.indirect T).1.unmarshaler with
  | some f =>
    obtain ⟨e, he⟩ := readOneValue_cut hv hq hp (fuel + 1) o []
    rw [heof (by simp only [reportsEOF, hu]), parseValue]
    simp only [parseUnmarshaler, hu, he]
    exact .error
  | none =>
    by_cases hk : (g.indirect T).1.kind = .iface
    · obtain ⟨e, he⟩ := parseValueInterface_cut hq hp (fuel + 1) o hraw
      rw [heof (by simp only [reportsEOF, hu, hk]), parseValue_iface_eq hu hk, he]
      exact .error
    · exact hother hu hk

/-- **Cut values.** Reading the beginning of a text is an error, and `io.EOF` is returned just
where `eofAt` says. -/
theorem parseValue_cut (T : τ → GoType τ) (v : Value) (hv : WellFormed (strLimit m) v) :
    ValueCut T m v := by
  induction v
  all_goals
    intro g buf p q hg hraw hne hq hp fuel o hf
  case int n =>
    refine parseValue_cutAt hv hraw hq hp hf (fun _ => rfl) fun hu hk => ?_
    obtain ⟨fuel, rfl⟩ : ∃ k, fuel = k + 1 := ⟨fuel - 1, by omega⟩
    obtain ⟨c, p, rfl⟩ := exists_cons_of_ne_nil hne
    obtain ⟨rfl, hp'⟩ := cons.inj hp
    obtain ⟨e, he⟩ := parseValue_int_cut hu hk hq hp' fuel o buf m
    rw [he]
    exact .error
  case str s =>
    refine parseValue_cutAt hv hraw hq hp hf (fun _ => rfl) fun hu hk => ?_
    obtain ⟨fuel, rfl⟩ : ∃ k, fuel = k + 1 := ⟨fuel - 1, by omega⟩
    obtain ⟨e, he⟩ := parseValue_str_cut hu hk hv hne hq hp fuel o buf
    rw [he]
    exact .error
  case list xs ih =>
    refine parseValue_cutAt hv hraw hq hp hf (fun h => by rw [eofAt, h]; rfl) fun hu hk => ?_
    obtain ⟨fuel, rfl⟩ : ∃ k, fuel = k + 1 := ⟨fuel - 1, by omega⟩
    obtain ⟨c, p, rfl⟩ := exists_cons_of_ne_nil hne
    obtain ⟨rfl, hp'⟩ := cons.inj hp
    have hxs := wellFormedItems_iff.mp hv
    rw [length_cons] at hf
    have hcut := parseItems_cut (hg.indirect.item hu)
      (fun x hx => ⟨ih x hx (hxs x hx), hxs x hx⟩) [] hraw hq hp' fuel (o + 1) (by omega)
    rw [eofAt, reportsEOF_of_other hu hk, Bool.true_and, tail_cons, parseValue_cons hu hk,
      if_neg (by decide), if_neg (by decide), if_pos rfl]
    split
    · next heq =>
      rw [hcut.thrown _ heq]
      exact .error
    · next heq =>
      obtain ⟨e, he, heof⟩ := hcut.returned _ _ heq
      obtain rfl : _ = some e := he
      refine .ok ?_ heof
      cases hk' : (g.indirect T).1.kind <;> simp [storeList, hk']
  case dict es ih =>
    refine parseValue_cutAt hv hraw hq hp hf (fun _ => rfl) fun hu hk => ?_
    obtain ⟨fuel, rfl⟩ : ∃ k, fuel = k + 1 := ⟨fuel - 1, by omega⟩
    obtain ⟨c, p, rfl⟩ := exists_cons_of_ne_nil hne
    obtain ⟨rfl, hp'⟩ := cons.inj hp
    have hes := wellFormedEntries_iff.mp hv.2
    rw [length_cons] at hf
    have hcut := parseDict_cut hg.indirect hu (fun e he => ⟨ih e he (hes e he).2, hes e he⟩)
      .zero buf hq hp' fuel (o + 1) (by omega)
    rw [eofAt, parseValue_cons hu hk, if_neg (by decide), if_pos rfl]
    · split
      · exact .error
      · next heq =>
        obtain ⟨e, he, heof⟩ := hcut.returned _ _ heq
        exact .ok he heof
    · simp

/-- `Decode` returns what was returned, and does not make an `io.EOF` of what was thrown. -/
theorem decode_of_cut (h : Cut eof Parsed.err (parseValue T (2 * d.rest.length + 2) g d)) :
    ∃ e, decode T g d = .error e ∧ (e = .eof ↔ eof = true) := by
  rw [decode]
  split
  · next heq => exact ⟨_, rfl, by simp [h.thrown _ heq]⟩
  · next e hne heq => exact ⟨e, rfl, by simpa [h.thrown _ heq] using hne⟩
  · next heq =>
    obtain ⟨e', he', heof⟩ := h.returned _ _ heq
    cases he'
    exact ⟨_, rfl, heof⟩
  · next heq =>
    obtain ⟨e', he', -⟩ := h.returned _ _ heq
    cases he'
  · next heq =>
    obtain ⟨e', he', -⟩ := h.returned _ _ heq
    cases he'

end Decoder

/-! ## `Decode` -/

/-- `Decode` returns an error, which is `io.EOF` just if there is no input. -/
def Classified (T : τ → GoType τ) (g : GoType τ) (d : Decoder) : Prop :=
  ∃ e, decode T g d = .error e ∧ (e = .eof ↔ d.rest = [])

/-- **End of input.** On the beginning `p` of the text of a value, empty or not, `Decode` returns
`io.EOF` if it is empty and another error if it is not, **iff**: an empty one meets a target that
is neither an `interface{}` nor an `Unmarshaler`, and another one does not end between the items of
a list with such a target. -/
theorem classified_iff {T : τ → GoType τ} {g : GoType τ} (hg : TagFree T g) {m : Int64} {v : Value}
    (hv : WellFormed (strLimit m) v) {p q : Str} (hq : q ≠ []) (hp : marshal v = p ++ q) (o : ℕ)
    {buf : Str} (hraw : Raw buf) :
    Classified T g ⟨p, o, buf, m⟩ ↔
      if p = [] then reportsEOF T g = true else eofAt T g v buf p = false := by
  by_cases hne : p = []
  · subst hne
    obtain ⟨e, he, heof⟩ := decode_of_cut (parseValue_eof (T := T) (g := g) 1 o buf m)
    rw [if_pos rfl]
    constructor
    · rintro ⟨e', he', h⟩
      rw [he] at he'
      cases he'
      exact heof.mp (h.mpr rfl)
    · intro h
      exact ⟨e, he, by simp [heof, h]⟩
  · obtain ⟨e, he, heof⟩ := decode_of_cut (d := ⟨p, o, buf, m⟩)
      (parseValue_cut T v hv hg hraw hne hq hp (2 * p.length + 2) o (by omega))
    rw [if_neg hne]
    constructor
    · rintro ⟨e', he', h⟩
      rw [he] at he'
      cases he'
      have : e ≠ .eof := fun h' => hne (h.mp h')
      simpa [heof] using this
    · intro h
      exact ⟨e, he, by simp [heof, h, hne]⟩

/-- The items of a list are `int64`. -/
def intTypes : Unit → GoType Unit := fun _ => ⟨.int 64, none⟩

/-- `i1`, the beginning of `i12e`, for an `int64`. -/
theorem classified_int : Classified intTypes ⟨.int 64, none⟩ ⟨[105, 49], 0, [], 0⟩ :=
  (classified_iff (T := intTypes) (v := .int (.int64 12)) (q := [50, 101])
    (fun g' h _ fields hk => by
      rcases Relation.ReflTransGen.cases_tail h with rfl | ⟨_, -, e, -, rfl⟩ <;> cases hk)
    (m := 0) (by decide) (by simp) (by decide) 0 .nil).mpr (by decide)

/-- `li1e`, the beginning of `li1ee`, for a `[]int64`: the end is reported as if there was no input.
For an `interface{}` the end of no input is unexpected. -/
theorem truncated_list_eof :
    marshal (.list [.int (.int64 1)]) = [108, 105, 49, 101] ++ [101] ∧
      decode intTypes ⟨.slice (), none⟩ ⟨[108, 105, 49, 101], 0, [], 0⟩ = .error .eof ∧
      decode intTypes .iface ⟨[], 0, [], 0⟩ = .error .unexpectedEOF :=
  ⟨by decide, rfl, rfl⟩

end ReliableBT.Bencode
